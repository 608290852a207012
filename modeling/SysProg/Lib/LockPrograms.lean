import Mathlib.Logic.Relation
import Mathlib.Logic.Function.Basic
import Mathlib.Data.List.Basic
import Mathlib.Order.Basic

/-!
# Lock programs and lock orders

The locking skeleton of a program: which semaphores it waits for, tries and
posts, in which order, with every other decision left open. Processes run their
skeletons side by side on semaphores that start at one. `wp` is the assertion
on the held locks from which a program keeps a discipline and ends in a
postcondition; a discipline that only lets larger locks be waited for excludes
circular waits.
-/

namespace SysProg.Lib

inductive LockProg (L : Type) : Type 1 where
  | skip
  | lock (l : L)
  | unlock (l : L)
  | tryLock (l : L) (body : LockProg L)
  | seq (p q : LockProg L)
  | choose {ι : Type} (branch : ι → LockProg L)
  | loop (body : LockProg L)
  | exit

namespace LockProg
variable {L : Type}

def either (p q : LockProg L) : LockProg L := .choose (fun b : Bool => if b then p else q)

def block : List (LockProg L) → LockProg L
  | [] => .skip
  | p :: ps => .seq p (block ps)

def forEach {ι : Type} (xs : List ι) (body : ι → LockProg L) : LockProg L :=
  block (xs.map body)

/-- From the held locks, the most recent first, `p` waits only for locks the
discipline admits, posts only what it holds last, and ends in `Q`. -/
def wp (admits : List L → L → Prop) : LockProg L → List L → (List L → Prop) → Prop
  | .skip, held, Q => Q held
  | .lock l, held, Q => admits held l ∧ Q (l :: held)
  | .unlock l, held, Q => ∃ rest, held = l :: rest ∧ Q rest
  | .tryLock l body, held, Q => wp admits body (l :: held) Q ∧ Q held
  | .seq p q, held, Q => wp admits p held (fun held' => wp admits q held' Q)
  | .choose branch, held, Q => ∀ i, wp admits (branch i) held Q
  | .loop body, held, Q => wp admits body held (· = held) ∧ Q held
  | .exit, _, _ => True

variable {admits : List L → L → Prop}

theorem wp_mono {p : LockProg L} {held : List L} {Q R : List L → Prop} (h : p.wp admits held Q)
    (hQR : ∀ held', Q held' → R held') : p.wp admits held R := by
  induction p generalizing held Q R with
  | skip => exact hQR _ h
  | lock l => exact ⟨h.1, hQR _ h.2⟩
  | unlock l =>
    obtain ⟨rest, hheld, hrest⟩ := h
    exact ⟨rest, hheld, hQR _ hrest⟩
  | tryLock l body ih => exact ⟨ih h.1 hQR, hQR _ h.2⟩
  | seq p q ihp ihq => exact ihp h (fun held' hq => ihq hq hQR)
  | choose branch ih => exact fun i => ih i (h i) hQR
  | loop body => exact ⟨h.1, hQR _ h.2⟩
  | exit => trivial

/-- A program that gives back what it takes can stand anywhere its discipline allows. -/
def Balanced (admits : List L → L → Prop) (p : LockProg L) (held : List L) : Prop :=
  p.wp admits held (· = held)

theorem Balanced.wp {p : LockProg L} {held : List L} {Q : List L → Prop}
    (h : p.Balanced admits held) (hQ : Q held) : p.wp admits held Q :=
  wp_mono h (fun _ heq => heq ▸ hQ)

theorem Balanced.seq {p q : LockProg L} {held : List L} (hp : p.Balanced admits held)
    (hq : q.Balanced admits held) : (p.seq q).Balanced admits held :=
  hp.wp (Q := fun held' => q.wp admits held' (· = held)) hq

theorem Balanced.choose {ι : Type} {branch : ι → LockProg L} {held : List L}
    (h : ∀ i, (branch i).Balanced admits held) : (LockProg.choose branch).Balanced admits held :=
  fun i => h i

theorem Balanced.either {p q : LockProg L} {held : List L} (hp : p.Balanced admits held)
    (hq : q.Balanced admits held) : (p.either q).Balanced admits held := by
  intro b
  cases b
  · exact hq
  · exact hp

theorem Balanced.loop {body : LockProg L} {held : List L} (h : body.Balanced admits held) :
    body.loop.Balanced admits held := ⟨h, rfl⟩

theorem Balanced.exit {held : List L} : (LockProg.exit : LockProg L).Balanced admits held := trivial

theorem Balanced.skip {held : List L} : (LockProg.skip : LockProg L).Balanced admits held := rfl

theorem Balanced.block {ps : List (LockProg L)} {held : List L}
    (h : ∀ p ∈ ps, p.Balanced admits held) : (block ps).Balanced admits held := by
  induction ps with
  | nil => exact .skip
  | cons p ps ih =>
    exact (h p List.mem_cons_self).seq (ih (fun q hq => h q (List.mem_cons_of_mem _ hq)))

theorem Balanced.forEach {ι : Type} {xs : List ι} {body : ι → LockProg L} {held : List L}
    (h : ∀ x, (body x).Balanced admits held) : (forEach xs body).Balanced admits held := by
  refine .block (fun p hp => ?_)
  obtain ⟨x, -, rfl⟩ := List.mem_map.mp hp
  exact h x

theorem Balanced.section {l : L} {body : LockProg L} {held : List L} (hl : admits held l)
    (hbody : body.Balanced admits (l :: held)) :
    (LockProg.block [.lock l, body, .unlock l]).Balanced admits held :=
  ⟨hl, hbody.wp ⟨held, rfl, rfl⟩⟩

end LockProg

/-! ### Processes -/

structure LockProcess (L : Type) where
  todo : List (LockProg L)
  held : List L

structure LockState (P L : Type) where
  value : L → ℕ
  process : P → LockProcess L

section Semantics
variable {P L : Type} [DecidableEq P] [DecidableEq L]

def LockState.set (s : LockState P L) (p : P) (todo : List (LockProg L)) (held : List L) :
    LockState P L :=
  { s with process := Function.update s.process p ⟨todo, held⟩ }

inductive LockStep (s : LockState P L) : LockState P L → Prop where
  | skip {p : P} {k : List (LockProg L)} : (s.process p).todo = .skip :: k →
      LockStep s (s.set p k (s.process p).held)
  | lock {p : P} {l : L} {k : List (LockProg L)} : (s.process p).todo = .lock l :: k →
      0 < s.value l →
      LockStep s { s.set p k (l :: (s.process p).held) with
        value := Function.update s.value l (s.value l - 1) }
  | unlock {p : P} {l : L} {k : List (LockProg L)} : (s.process p).todo = .unlock l :: k →
      LockStep s { s.set p k ((s.process p).held.erase l) with
        value := Function.update s.value l (s.value l + 1) }
  | tryLock {p : P} {l : L} {body : LockProg L} {k : List (LockProg L)} :
      (s.process p).todo = .tryLock l body :: k → 0 < s.value l →
      LockStep s { s.set p (body :: k) (l :: (s.process p).held) with
        value := Function.update s.value l (s.value l - 1) }
  | tryFails {p : P} {l : L} {body : LockProg L} {k : List (LockProg L)} :
      (s.process p).todo = .tryLock l body :: k → s.value l = 0 →
      LockStep s (s.set p k (s.process p).held)
  | seq {p : P} {a b : LockProg L} {k : List (LockProg L)} : (s.process p).todo = .seq a b :: k →
      LockStep s (s.set p (a :: b :: k) (s.process p).held)
  | choose {p : P} {ι : Type} {branch : ι → LockProg L} {k : List (LockProg L)} (i : ι) :
      (s.process p).todo = .choose branch :: k →
      LockStep s (s.set p (branch i :: k) (s.process p).held)
  | again {p : P} {body : LockProg L} {k : List (LockProg L)} :
      (s.process p).todo = .loop body :: k →
      LockStep s (s.set p (body :: .loop body :: k) (s.process p).held)
  | leave {p : P} {body : LockProg L} {k : List (LockProg L)} :
      (s.process p).todo = .loop body :: k → LockStep s (s.set p k (s.process p).held)
  | exit {p : P} {k : List (LockProg L)} : (s.process p).todo = .exit :: k →
      LockStep s (s.set p [] (s.process p).held)

def LockState.start (program : P → LockProg L) : LockState P L where
  value _ := 1
  process p := ⟨[program p], []⟩

def LockReachable (program : P → LockProg L) : LockState P L → Prop :=
  Relation.ReflTransGen LockStep (.start program)

def LockState.Blocked (s : LockState P L) (p : P) (l : L) : Prop :=
  (∃ k, (s.process p).todo = .lock l :: k) ∧ s.value l = 0

def LockState.WaitsFor (s : LockState P L) (p q : P) : Prop :=
  ∃ l, s.Blocked p l ∧ l ∈ (s.process q).held

/-! ### A discipline that every program keeps is kept by every run -/

def Disciplined (admits : List L → L → Prop) : List L → List (LockProg L) → Prop
  | _, [] => True
  | held, p :: k => p.wp admits held (fun held' => Disciplined admits held' k)

variable {admits : List L → L → Prop}

omit [DecidableEq L] in
theorem LockState.set_process_self (s : LockState P L) (p : P) (todo : List (LockProg L))
    (held : List L) : (s.set p todo held).process p = ⟨todo, held⟩ := Function.update_self ..

omit [DecidableEq L] in
theorem LockState.set_process_ne (s : LockState P L) {p q : P} (todo : List (LockProg L))
    (held : List L) (h : q ≠ p) : (s.set p todo held).process q = s.process q :=
  Function.update_of_ne h ..

theorem LockStep.disciplined {s s' : LockState P L} (h : LockStep s s')
    (hprior : ∀ p, Disciplined admits (s.process p).held (s.process p).todo) :
    ∀ p, Disciplined admits (s'.process p).held (s'.process p).todo := by
  have frame : ∀ {p : P} {todo : List (LockProg L)} {held : List L},
      Disciplined admits held todo →
      ∀ q, Disciplined admits ((s.set p todo held).process q).held
        ((s.set p todo held).process q).todo := by
    intro p todo held hp q
    by_cases hq : q = p
    · subst hq
      rw [s.set_process_self]
      exact hp
    · rw [s.set_process_ne todo held hq]
      exact hprior q
  cases h with
  | @skip p k htodo =>
    have hp := hprior p
    rw [htodo] at hp
    exact frame hp
  | @lock p l k htodo =>
    have hp := hprior p
    rw [htodo] at hp
    exact frame hp.2
  | @unlock p l k htodo =>
    have hp := hprior p
    rw [htodo] at hp
    obtain ⟨rest, hheld, hrest⟩ := hp
    refine frame ?_
    rw [hheld, List.erase_cons_head]
    exact hrest
  | @tryLock p l body k htodo =>
    have hp := hprior p
    rw [htodo] at hp
    exact frame hp.1
  | @tryFails p l body k htodo =>
    have hp := hprior p
    rw [htodo] at hp
    exact frame hp.2
  | @seq p a b k htodo =>
    have hp := hprior p
    rw [htodo] at hp
    exact frame hp
  | @choose p ι branch k i htodo =>
    have hp := hprior p
    rw [htodo] at hp
    exact frame (hp i)
  | @again p body k htodo =>
    have hp := hprior p
    rw [htodo] at hp
    exact frame (LockProg.wp_mono hp.1 (fun held' heq => heq ▸ hp))
  | @leave p body k htodo =>
    have hp := hprior p
    rw [htodo] at hp
    exact frame hp.2
  | exit => exact frame trivial

theorem LockReachable.disciplined {program : P → LockProg L} {s : LockState P L}
    (h : LockReachable program s) (hprog : ∀ p, (program p).Balanced admits []) :
    ∀ p, Disciplined admits (s.process p).held (s.process p).todo := by
  induction h with
  | refl => exact fun p => (hprog p).wp trivial
  | tail _ hstep ih => exact hstep.disciplined ih

/-- In every reachable state a wait is one the discipline admits. -/
theorem LockReachable.admits_of_blocked {program : P → LockProg L} {s : LockState P L}
    (h : LockReachable program s) (hprog : ∀ p, (program p).Balanced admits []) {p : P} {l : L}
    (hblocked : s.Blocked p l) : admits (s.process p).held l := by
  obtain ⟨⟨k, htodo⟩, -⟩ := hblocked
  have hp := h.disciplined hprog p
  rw [htodo] at hp
  exact hp.1

/-- Locks waited for in increasing order: along a chain of waits the locks grow, so no
chain closes. -/
theorem LockReachable.no_cycle {R : Type} [Preorder R] (rank : L → R)
    {program : P → LockProg L} {s : LockState P L} (h : LockReachable program s)
    (hprog : ∀ p, (program p).Balanced admits [])
    (hrank : ∀ held l, admits held l → ∀ l' ∈ held, rank l' < rank l) (p : P) :
    ¬ Relation.TransGen s.WaitsFor p p := by
  have grows : ∀ {p q : P}, Relation.TransGen s.WaitsFor p q → ∀ {l : L}, s.Blocked q l →
      ∃ l', s.Blocked p l' ∧ rank l' < rank l := by
    intro p q hpath
    induction hpath with
    | single hwait =>
      intro l hl
      obtain ⟨l', hl', hheld⟩ := hwait
      exact ⟨l', hl', hrank _ _ (h.admits_of_blocked hprog hl) _ hheld⟩
    | tail _ hwait ih =>
      intro l hl
      obtain ⟨l', hl', hheld⟩ := hwait
      obtain ⟨l₀, hl₀, hlt⟩ := ih hl'
      exact ⟨l₀, hl₀, hlt.trans (hrank _ _ (h.admits_of_blocked hprog hl) _ hheld)⟩
  have hunique : ∀ {q : P} {l l' : L}, s.Blocked q l → s.Blocked q l' → l = l' := by
    rintro q l l' ⟨⟨k, hk⟩, -⟩ ⟨⟨k', hk'⟩, -⟩
    rw [hk] at hk'
    simp only [List.cons.injEq, LockProg.lock.injEq] at hk'
    exact hk'.1
  intro hcycle
  obtain ⟨q, ⟨l, hl, -⟩, -⟩ := Relation.TransGen.head'_iff.mp hcycle
  obtain ⟨l', hl', hlt⟩ := grows hcycle hl
  rw [hunique hl' hl] at hlt
  exact lt_irrefl _ hlt

end Semantics

end SysProg.Lib

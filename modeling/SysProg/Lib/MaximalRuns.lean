import Mathlib.Data.List.Basic

/-!
# Scanning a list for its maximal runs

Two loops alternate over a list: one skips the elements that fail a test, the
other passes those that meet it. The stretches of the second loop are the
maximal runs of the test, each of them once and from left to right.
-/

namespace SysProg.Lib

variable {α : Type*} (p : α → Bool) (l : List α)

/-- Whether the element at this position meets the test; there is none behind the end. -/
def holdsAt (i : ℕ) : Bool := l[i]?.any p

theorem holdsAt_lt {p : α → Bool} {l : List α} {i : ℕ} (h : holdsAt p l i = true) :
    i < l.length := by
  by_contra hi
  rw [holdsAt, List.getElem?_eq_none (by omega)] at h
  cases h

theorem holdsAt_not {p : α → Bool} {l : List α} {i : ℕ} (hi : i < l.length) :
    holdsAt (fun x => !p x) l i = !holdsAt p l i := by
  simp [holdsAt, hi]

/-- `while (i < n && p(l[i])) i++` -/
def advance (i : ℕ) : ℕ :=
  if h : holdsAt p l i = true then
    have := holdsAt_lt h
    advance (i + 1)
  else i
termination_by l.length - i

structure MaximalRun (first last : ℕ) : Prop where
  nonempty : first < last
  inside : ∀ i, first ≤ i → i < last → holdsAt p l i = true
  left : ∀ i, i + 1 = first → holdsAt p l i = false
  right : holdsAt p l last = false

variable {p l} {i a b c d : ℕ}

theorem advance_of_holdsAt (h : holdsAt p l i = true) :
    advance p l i = advance p l (i + 1) := by
  rw [advance, dif_pos h]

theorem le_advance (i : ℕ) : i ≤ advance p l i := by
  induction i using advance.induct p l with
  | case1 i h _ ih =>
    rw [advance_of_holdsAt h]
    omega
  | case2 i h => exact Nat.le_of_eq (by rw [advance, dif_neg h])

theorem holdsAt_of_lt_advance (hi : a ≤ i) (hlt : i < advance p l a) : holdsAt p l i = true := by
  induction a using advance.induct p l with
  | case1 a h _ ih =>
    rw [advance, dif_pos h] at hlt
    rcases Nat.eq_or_lt_of_le hi with rfl | hi
    · exact h
    · exact ih hi hlt
  | case2 a h =>
    rw [advance, dif_neg h] at hlt
    omega

theorem holdsAt_advance (i : ℕ) : holdsAt p l (advance p l i) = false := by
  induction i using advance.induct p l with
  | case1 i h _ ih =>
    rw [advance, dif_pos h]
    exact ih
  | case2 i h =>
    rw [advance, dif_neg h]
    exact Bool.not_eq_true _ ▸ h

theorem drop_advance (i : ℕ) : l.drop (advance p l i) = (l.drop i).dropWhile p := by
  induction i using advance.induct p l with
  | case1 i h hlt ih =>
    rw [advance, dif_pos h, ih, List.drop_eq_getElem_cons hlt]
    rw [holdsAt, List.getElem?_eq_getElem hlt, Option.any_some] at h
    rw [List.dropWhile_cons_of_pos h]
  | case2 i h =>
    rw [advance, dif_neg h]
    rcases Nat.lt_or_ge i l.length with hlt | hge
    · rw [holdsAt, List.getElem?_eq_getElem hlt, Option.any_some] at h
      rw [List.drop_eq_getElem_cons hlt, List.dropWhile_cons_of_neg h]
    · rw [List.drop_eq_nil_of_le hge, List.dropWhile_nil]

theorem take_advance (i : ℕ) :
    (l.drop i).take (advance p l i - i) = (l.drop i).takeWhile p := by
  have hsplit : (l.drop i).take (advance p l i - i) ++ l.drop (advance p l i) = l.drop i := by
    have hdrop := List.take_append_drop (advance p l i - i) (l.drop i)
    rwa [List.drop_drop, Nat.add_sub_cancel' (le_advance i)] at hdrop
  rw [drop_advance] at hsplit
  have hwhile := List.takeWhile_append_dropWhile (p := p) (l := l.drop i)
  exact List.append_cancel_right (hsplit.trans hwhile.symm)

theorem MaximalRun.eq_of_mem (h : MaximalRun p l a b) (h' : MaximalRun p l c d)
    (hab : a ≤ i ∧ i < b) (hcd : c ≤ i ∧ i < d) : a = c ∧ b = d := by
  have hclash : ∀ j, holdsAt p l j = true → holdsAt p l j = false → False := by
    intro j htrue hfalse
    rw [htrue] at hfalse
    cases hfalse
  refine ⟨?_, ?_⟩
  · rcases Nat.lt_trichotomy a c with hlt | heq | hgt
    · exact (hclash (c - 1) (h.inside _ (by omega) (by omega)) (h'.left _ (by omega))).elim
    · exact heq
    · exact (hclash (a - 1) (h'.inside _ (by omega) (by omega)) (h.left _ (by omega))).elim
  · rcases Nat.lt_trichotomy b d with hlt | heq | hgt
    · exact (hclash b (h'.inside _ (by omega) hlt) h.right).elim
    · exact heq
    · exact (hclash d (h.inside _ (by omega) hgt) h'.right).elim

theorem MaximalRun.last_le_length (h : MaximalRun p l a b) : b ≤ l.length := by
  have hpos := h.nonempty
  have hlt := holdsAt_lt (h.inside (b - 1) (by omega) (by omega))
  omega

/-! ### The two loops -/

theorem holdsAt_skip (h : advance (fun x => !p x) l i < l.length) :
    holdsAt p l (advance (fun x => !p x) l i) = true := by
  have hstop := holdsAt_advance (p := fun x => !p x) (l := l) i
  rwa [holdsAt_not h, Bool.not_eq_false'] at hstop

theorem holdsAt_skipped (hi : i < l.length) (hai : a ≤ i)
    (hlt : i < advance (fun x => !p x) l a) : holdsAt p l i = false := by
  have hskip := holdsAt_of_lt_advance (p := fun x => !p x) hai hlt
  rwa [holdsAt_not hi, Bool.not_eq_true'] at hskip

theorem length_sub_advance_lt (h : advance (fun x => !p x) l i < l.length) :
    l.length - advance p l (advance (fun x => !p x) l i) < l.length - i := by
  have hstart := le_advance (p := fun x => !p x) (l := l) i
  rw [advance_of_holdsAt (holdsAt_skip h)]
  have hrest := le_advance (p := p) (l := l) (advance (fun x => !p x) l i + 1)
  omega

variable (p l) in
/-- The stretches of the second loop, from position `i` on. -/
def runsFrom (i : ℕ) : List (ℕ × ℕ) :=
  if h : advance (fun x => !p x) l i < l.length then
    have := length_sub_advance_lt h
    (advance (fun x => !p x) l i, advance p l (advance (fun x => !p x) l i)) ::
      runsFrom (advance p l (advance (fun x => !p x) l i))
  else []
termination_by l.length - i

theorem maximalRun_advance (hi : i = 0 ∨ holdsAt p l i = false)
    (h : advance (fun x => !p x) l i < l.length) :
    MaximalRun p l (advance (fun x => !p x) l i)
      (advance p l (advance (fun x => !p x) l i)) where
  nonempty := by
    rw [advance_of_holdsAt (holdsAt_skip h)]
    exact le_advance _
  inside := fun j hj hlt => holdsAt_of_lt_advance hj hlt
  left := by
    intro j hj
    have hstop := holdsAt_skip h
    rcases Nat.lt_or_ge j i with hlt | hge
    · -- the run starts where the scan does, behind the end of another run
      have heq : advance (fun x => !p x) l i = i := by
        have := le_advance (p := fun x => !p x) (l := l) i
        omega
      rw [heq] at hstop
      rcases hi with rfl | hi
      · omega
      · rw [hstop] at hi
        cases hi
    · exact holdsAt_skipped (by omega) hge (by omega)
  right := holdsAt_advance _

/-- The scan meets exactly the maximal runs. -/
theorem mem_runsFrom (hi : i = 0 ∨ holdsAt p l i = false) :
    (a, b) ∈ runsFrom p l i ↔ MaximalRun p l a b ∧ i ≤ a := by
  induction i using runsFrom.induct p l with
  | case1 i h hgt ih =>
    have hrun := maximalRun_advance hi h
    have hstart := le_advance (p := fun x => !p x) (l := l) i
    rw [runsFrom, dif_pos h, List.mem_cons, ih (Or.inr hrun.right), Prod.mk.injEq]
    constructor
    · rintro (⟨rfl, rfl⟩ | ⟨hab, hle⟩)
      · exact ⟨hrun, hstart⟩
      · exact ⟨hab, by omega⟩
    · rintro ⟨hab, hle⟩
      have hfirst := hab.inside a (Nat.le_refl _) hab.nonempty
      have hge : advance (fun x => !p x) l i ≤ a := by
        by_contra hlt
        rw [holdsAt_skipped (holdsAt_lt hfirst) hle (by omega)] at hfirst
        cases hfirst
      rcases Nat.lt_or_ge a (advance p l (advance (fun x => !p x) l i)) with hlt | hle'
      · exact Or.inl (hab.eq_of_mem hrun ⟨Nat.le_refl _, hab.nonempty⟩ ⟨hge, hlt⟩)
      · exact Or.inr ⟨hab, hle'⟩
  | case2 i h =>
    rw [runsFrom, dif_neg h]
    refine ⟨fun hmem => absurd hmem List.not_mem_nil, fun ⟨hab, hle⟩ => ?_⟩
    have hfirst := hab.inside a (Nat.le_refl _) hab.nonempty
    have hlt := holdsAt_lt hfirst
    rw [holdsAt_skipped hlt hle (by omega)] at hfirst
    cases hfirst

theorem runsFrom_pairwise (hi : i = 0 ∨ holdsAt p l i = false) :
    (runsFrom p l i).Pairwise fun r s => r.2 ≤ s.1 := by
  induction i using runsFrom.induct p l with
  | case1 i h _ ih =>
    have hstop : holdsAt p l (advance p l (advance (fun x => !p x) l i)) = false :=
      holdsAt_advance _
    rw [runsFrom, dif_pos h]
    refine List.pairwise_cons.mpr ⟨?_, ih (Or.inr hstop)⟩
    rintro ⟨c, d⟩ hcd
    exact ((mem_runsFrom (Or.inr hstop)).mp hcd).2
  | case2 i h =>
    rw [runsFrom, dif_neg h]
    exact List.Pairwise.nil

theorem runsFrom_nodup (hi : i = 0 ∨ holdsAt p l i = false) : (runsFrom p l i).Nodup := by
  refine (runsFrom_pairwise hi).imp_of_mem ?_
  rintro ⟨a, b⟩ ⟨c, d⟩ hab - hle heq
  have hpos := ((mem_runsFrom hi).mp hab).1.nonempty
  obtain ⟨rfl, rfl⟩ := Prod.mk.inj heq
  omega

end SysProg.Lib

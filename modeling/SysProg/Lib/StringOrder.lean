import Mathlib.Data.List.Infix
import SysProg.Lib.ComparatorSort

/-!
# The order of C strings

`strcmp` compares by the first character that differs. A string is a list of
characters without the terminator, which is smaller than each of them; strings
that begin alike stand together in this order.
-/

namespace SysProg.Lib

/-- The difference of the first characters that differ, the terminator included. -/
def strcmp : List Char → List Char → ℤ
  | [], [] => 0
  | [], b :: _ => -(b.toNat : ℤ)
  | a :: _, [] => a.toNat
  | a :: as, b :: bs => if a = b then strcmp as bs else (a.toNat : ℤ) - b.toNat

theorem strcmp_swap (x y : List Char) : strcmp y x = -strcmp x y := by
  induction x generalizing y with
  | nil =>
    cases y with
    | nil => rfl
    | cons b y =>
      rw [strcmp, strcmp]
      omega
  | cons a x ih =>
    cases y with
    | nil => rfl
    | cons b y =>
      rw [strcmp, strcmp]
      split_ifs with hba hab hab
      · exact ih y
      · exact absurd hba.symm hab
      · exact absurd hab.symm hba
      · omega

theorem strcmp_append (w x y : List Char) : strcmp (w ++ x) (w ++ y) = strcmp x y := by
  induction w with
  | nil => rfl
  | cons c w ih => rw [List.cons_append, List.cons_append, strcmp, if_pos rfl, ih]

theorem toNat_pos_of_ne_nul {c : Char} (h : c ≠ '\x00') : 0 < c.toNat := by
  apply Nat.pos_of_ne_zero
  intro hzero
  exact h (Char.toNat_inj.mp hzero)

theorem eq_of_strcmp_eq_zero {x y : List Char} (hx : '\x00' ∉ x) (hy : '\x00' ∉ y)
    (h : strcmp x y = 0) : x = y := by
  induction x generalizing y with
  | nil =>
    cases y with
    | nil => rfl
    | cons b y =>
      have hb := toNat_pos_of_ne_nul fun heq => hy (heq ▸ List.mem_cons_self)
      rw [strcmp] at h
      omega
  | cons a x ih =>
    have ha := toNat_pos_of_ne_nul fun heq => hx (heq ▸ List.mem_cons_self)
    cases y with
    | nil =>
      rw [strcmp] at h
      omega
    | cons b y =>
      rw [strcmp] at h
      split_ifs at h with hab
      · rw [hab, ih (fun hmem => hx (List.mem_cons_of_mem a hmem))
          (fun hmem => hy (List.mem_cons_of_mem b hmem)) h]
      · exact absurd (Char.toNat_inj.mp (by omega)) hab

theorem strcmp_trans {x y z : List Char} (hx : '\x00' ∉ x) (hy : '\x00' ∉ y) (hxy : strcmp x y ≤ 0)
    (hyz : strcmp y z ≤ 0) : strcmp x z ≤ 0 := by
  induction x generalizing y z with
  | nil =>
    cases z with
    | nil => exact le_rfl
    | cons c z =>
      rw [strcmp]
      omega
  | cons a x ih =>
    have ha := toNat_pos_of_ne_nul fun heq => hx (heq ▸ List.mem_cons_self)
    cases y with
    | nil =>
      rw [strcmp] at hxy
      omega
    | cons b y =>
      have hb := toNat_pos_of_ne_nul fun heq => hy (heq ▸ List.mem_cons_self)
      cases z with
      | nil =>
        rw [strcmp] at hyz
        omega
      | cons c z =>
        rw [strcmp] at hxy hyz ⊢
        by_cases hab : a = b
        · subst hab
          rw [if_pos rfl] at hxy
          by_cases hac : a = c
          · subst hac
            rw [if_pos rfl] at hyz ⊢
            exact ih (fun hmem => hx (List.mem_cons_of_mem a hmem))
              (fun hmem => hy (List.mem_cons_of_mem a hmem)) hxy hyz
          · rwa [if_neg hac] at hyz ⊢
        · rw [if_neg hab] at hxy
          by_cases hbc : b = c
          · subst hbc
            rwa [if_neg hab]
          · rw [if_neg hbc] at hyz
            by_cases hac : a = c
            · -- the first characters would go up and down again
              subst hac
              exact absurd (Char.toNat_inj.mp (by omega)) hab
            · rw [if_neg hac]
              omega

theorem prefix_of_strcmp_between {w x y z : List Char} (hw : '\x00' ∉ w) (hx : w <+: x)
    (hz : w <+: z)
    (hxy : strcmp x y ≤ 0) (hyz : strcmp y z ≤ 0) : w <+: y := by
  induction w generalizing x y z with
  | nil => exact List.nil_prefix
  | cons c w ih =>
    have hc := toNat_pos_of_ne_nul fun heq => hw (heq ▸ List.mem_cons_self)
    obtain ⟨x, rfl⟩ := hx
    obtain ⟨z, rfl⟩ := hz
    cases y with
    | nil =>
      rw [List.cons_append, strcmp] at hxy
      omega
    | cons e y =>
      rw [List.cons_append, strcmp] at hxy hyz
      by_cases hce : c = e
      · subst hce
        rw [if_pos rfl] at hxy hyz
        rw [List.cons_prefix_cons]
        exact ⟨rfl, ih (fun hmem => hw (List.mem_cons_of_mem c hmem)) (List.prefix_append w x)
          (List.prefix_append w z) hxy hyz⟩
      · rw [if_neg hce] at hxy
        rw [if_neg (Ne.symm hce)] at hyz
        exact absurd (Char.toNat_inj.mp (by omega)) hce

variable {α : Type*} (text : α → List Char) {xs : List α}

theorem consistentOn_strcmp (h : ∀ a ∈ xs, '\x00' ∉ text a) :
    ConsistentOn (fun a b => strcmp (text a) (text b)) xs where
  antisymm := by
    intro a _ b _
    rw [strcmp_swap (text a) (text b)]
    omega
  trans := by
    intro a ha b hb c _ hab hbc
    exact strcmp_trans (h a ha) (h b hb) hab hbc

theorem eq_of_sorted_strcmp {ys zs : List α} (hperm : ys.Perm zs)
    (h : ∀ a ∈ ys, '\x00' ∉ text a) (hinj : ∀ a ∈ ys, ∀ b ∈ ys, text a = text b → a = b)
    (hys : ys.Pairwise fun a b => strcmp (text a) (text b) ≤ 0)
    (hzs : zs.Pairwise fun a b => strcmp (text a) (text b) ≤ 0) : ys = zs := by
  apply hperm.eq_of_pairwise _ hys hzs
  intro a b ha hb hab hba
  have hbin : b ∈ ys := hperm.symm.subset hb
  apply hinj a ha b hbin
  apply eq_of_strcmp_eq_zero (h a ha) (h b hbin)
  rw [strcmp_swap (text a) (text b)] at hba
  omega

end SysProg.Lib

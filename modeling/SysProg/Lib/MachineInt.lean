import Mathlib.Data.Int.Init
import Mathlib.Tactic.Linarith
import Mathlib.Tactic.Ring

/-!
# Signed machine arithmetic

A signed register of `w+1` bits holds the representative between `-2^w` and
`2^w - 1` of an exact result. It holds the result itself when that is in range.
-/

namespace SysProg.Lib

/-- The value that a signed register of `w` bits holds for an exact result. -/
def wrapInt (w : ℕ) (x : ℤ) : ℤ := Int.bmod x (2 ^ w)

variable {w : ℕ} {x y : ℤ}

/-- The register holds the one value of its range in the residue class. -/
theorem wrapInt_eq_iff :
    wrapInt (w + 1) x = y ↔ -2 ^ w ≤ y ∧ y < 2 ^ w ∧ ∃ k, x = y + 2 ^ (w + 1) * k := by
  have hpow : 2 ^ (w + 1) = 2 * 2 ^ w := by ring
  have hpos : 0 < 2 ^ (w + 1) := Nat.two_pow_pos _
  have hhalf : ((2 ^ (w + 1) : ℕ) : ℤ) / 2 = 2 ^ w := by
    rw [hpow]
    push_cast
    omega
  have hhalf' : (((2 ^ (w + 1) : ℕ) : ℤ) + 1) / 2 = 2 ^ w := by
    rw [hpow]
    push_cast
    omega
  rw [wrapInt, Int.bmod_eq_iff hpos, hhalf, hhalf']
  constructor
  · rintro ⟨hlo, hhi, k, hk⟩
    refine ⟨hlo, hhi, -k, ?_⟩
    push_cast at hk
    linarith
  · rintro ⟨hlo, hhi, k, hk⟩
    refine ⟨hlo, hhi, -k, ?_⟩
    push_cast
    linarith

theorem wrapInt_eq_self_iff : wrapInt (w + 1) x = x ↔ -2 ^ w ≤ x ∧ x < 2 ^ w := by
  rw [wrapInt_eq_iff]
  constructor
  · rintro ⟨hlo, hhi, -⟩
    exact ⟨hlo, hhi⟩
  · rintro ⟨hlo, hhi⟩
    exact ⟨hlo, hhi, 0, by ring⟩

theorem wrapInt_mem_range (w : ℕ) (x : ℤ) :
    -2 ^ w ≤ wrapInt (w + 1) x ∧ wrapInt (w + 1) x < 2 ^ w := by
  obtain ⟨hlo, hhi, -⟩ := wrapInt_eq_iff.mp (Eq.refl (wrapInt (w + 1) x))
  exact ⟨hlo, hhi⟩

theorem wrapInt_of_ge (hlo : 2 ^ w ≤ x) (hhi : x < 2 ^ (w + 1)) :
    wrapInt (w + 1) x = x - 2 ^ (w + 1) := by
  have hpow : (2 : ℤ) ^ (w + 1) = 2 * 2 ^ w := by ring
  exact wrapInt_eq_iff.mpr ⟨by omega, by omega, 1, by ring⟩

theorem wrapInt_add (w : ℕ) (x y : ℤ) : wrapInt w (wrapInt w x + y) = wrapInt w (x + y) :=
  Int.bmod_add_bmod

theorem wrapInt_emod (w : ℕ) (x : ℤ) : wrapInt w x % 2 ^ w = x % 2 ^ w := by
  have hmod := Int.bmod_emod (x := x) (m := 2 ^ w)
  push_cast at hmod
  exact hmod

/-! ### `int` and `long` -/

def intMax : ℤ := 2147483647

def int32 (x : ℤ) : ℤ := wrapInt 32 x

def int64 (x : ℤ) : ℤ := wrapInt 64 x

theorem int32_add (x y : ℤ) : int32 (int32 x + y) = int32 (x + y) := wrapInt_add 32 x y

theorem int64_add (x y : ℤ) : int64 (int64 x + y) = int64 (x + y) := wrapInt_add 64 x y

theorem int32_range (x : ℤ) : -2147483648 ≤ int32 x ∧ int32 x < 2147483648 := wrapInt_mem_range 31 x

theorem int32_emod (x : ℤ) : int32 x % 4294967296 = x % 4294967296 := wrapInt_emod 32 x

theorem int32_le (x : ℤ) : int32 x ≤ intMax := Int.le_of_lt_add_one (int32_range x).2

theorem int32_of_range {x : ℤ} (hlo : 0 ≤ x) (hhi : x ≤ intMax) : int32 x = x := by
  simp only [intMax] at hhi
  exact (wrapInt_eq_self_iff (w := 31)).mpr ⟨by omega, by omega⟩

theorem int64_eq_self_iff {x : ℤ} : int64 x = x ↔ -2 ^ 63 ≤ x ∧ x < 2 ^ 63 :=
  wrapInt_eq_self_iff

theorem int32_eq_self_iff {x : ℤ} : int32 x = x ↔ -2 ^ 31 ≤ x ∧ x < 2 ^ 31 :=
  wrapInt_eq_self_iff

theorem int32_of_lt {n : ℕ} (h : n < 2 ^ 31) : int32 n = n := by
  apply int32_of_range
  · exact Int.natCast_nonneg n
  · simp only [intMax]
    omega

end SysProg.Lib

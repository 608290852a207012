import SysProg.Lib.MachineInt
import SysProg.Lib.RunSplit
import Mathlib.Data.List.Basic
import Mathlib.Data.List.TakeWhile
import Mathlib.Data.Nat.Digits.Defs
import Mathlib.Order.Lattice

/-!
# C strings and numbers in text

Bytes are characters and C strings are lists of them; the classes of characters
are those of the C locale. `strtol` skips white space, reads a sign and digits
and clamps the value to `long`; `%d` writes it.
-/

namespace SysProg.Lib

/-! ### Characters -/

def isSpace (c : Char) : Bool :=
  c == ' ' || c == '\t' || c == '\n' || c == '\x0b' || c == '\x0c' || c == '\r'

def isInk (c : Char) : Bool := !isSpace c

def Blank (b : List Char) : Prop := Run isSpace b

theorem isSpace_of_class {p : Char → Bool}
    (hp : [' ', '\t', '\n', '\x0b', '\x0c', '\r'].all (fun b => !p b) = true) {c : Char}
    (h : p c = true) : isSpace c = false := by
  by_contra hspace
  simp only [isSpace, Bool.not_eq_false, Bool.or_eq_true, beq_iff_eq] at hspace
  have hmem : c ∈ [' ', '\t', '\n', '\x0b', '\x0c', '\r'] := by
    simpa [or_assoc] using hspace
  simpa [h] using List.all_eq_true.mp hp c hmem

theorem isSpace_of_isDigit {c : Char} (h : c.isDigit = true) : isSpace c = false :=
  isSpace_of_class (by decide) h

theorem isSpace_of_isUpper {c : Char} (h : c.isUpper = true) : isSpace c = false :=
  isSpace_of_class (by decide) h

theorem isDigit_of_isSpace {c : Char} (h : isSpace c = true) : c.isDigit = false := by
  by_contra hdigit
  rw [isSpace_of_isDigit (Bool.not_eq_false _ ▸ hdigit)] at h
  cases h

theorem isUpper_of_isDigit {c : Char} (h : c.isDigit = true) : c.isUpper = false := by
  by_contra hupper
  have hletter : 'A'.val ≤ c.val ∧ c.val ≤ 'Z'.val :=
    of_decide_eq_true (Bool.not_eq_false _ ▸ hupper)
  simp only [Char.isDigit, Bool.and_eq_true, decide_eq_true_eq] at h
  have hlow : (65 : ℕ) ≤ c.val.toNat := hletter.1
  have hhigh : c.val.toNat ≤ 57 := h.2
  omega

theorem isSpace_newline : isSpace '\n' = true := by decide

theorem dropWhile_isSpace {t y : List Char} (hne : t ≠ []) (ht : ∀ c ∈ t, isSpace c = false) :
    (t ++ y).dropWhile isSpace = t ++ y := by
  obtain ⟨c, rest, rfl⟩ := List.exists_cons_of_ne_nil hne
  rw [List.cons_append, List.dropWhile_cons_of_neg (by simp [ht c List.mem_cons_self])]

theorem stops_isDigit_of_blank {b : List Char} (hb : Blank b) : Stops Char.isDigit b :=
  stops_of_forall fun c hc => isDigit_of_isSpace (hb c hc)

theorem stops_isInk_of_blank {b : List Char} (hb : Blank b) : Stops isInk b :=
  stops_of_forall fun c hc => by simp [isInk, hb c hc]

theorem gap_ne_nil {b w rest : List Char} (hne : w ≠ []) (hw : Run isInk w)
    (h : Stops isInk (b ++ (w ++ rest))) : b ≠ [] := by
  rintro rfl
  obtain ⟨c, tail, rfl⟩ := List.exists_cons_of_ne_nil hne
  have hstop : isInk c = false := stops_cons.mp h
  rw [hw c List.mem_cons_self] at hstop
  cases hstop

theorem stops_gap {p : Char → Bool} {b w rest : List Char} (hb : Stops p b)
    (hw : b = [] → Stops p (w ++ rest)) : Stops p (b ++ (w ++ rest)) := by
  cases b with
  | nil => exact hw rfl
  | cons c b => exact (stops_append (List.cons_ne_nil c b) _).mpr hb

/-! ### Strings -/

def cString (bytes : List Char) : List Char := bytes.takeWhile (· != '\x00')

theorem cString_of_notMem {bytes : List Char} (h : '\x00' ∉ bytes) : cString bytes = bytes := by
  refine List.takeWhile_eq_self_iff.mpr (fun c hc => ?_)
  simp only [bne_iff_ne]
  rintro rfl
  exact h hc

theorem cString_append_of_mem {bytes : List Char} (h : '\x00' ∈ bytes) (rest : List Char) :
    cString (bytes ++ rest) = cString bytes := by
  rw [cString, cString, List.takeWhile_append, if_neg]
  intro hlength
  have hall := (List.takeWhile_prefix (· != '\x00')).eq_of_length hlength
  rw [← hall] at h
  simpa using List.mem_takeWhile_imp h

theorem nul_notMem {p : Char → Bool} {text : List Char} (htext : ∀ c ∈ text, p c = true)
    (hp : p '\x00' = false) : '\x00' ∉ text := by
  intro hnul
  rw [htext _ hnul] at hp
  cases hp

/-- The text that `snprintf` leaves in a buffer of this size. -/
def snprintf (size : ℕ) (text : List Char) : List Char := text.take (size - 1)

/-! ### Numbers that are written -/

def decimal (x : ℤ) : List Char :=
  if x < 0 then '-' :: Nat.toDigits 10 x.natAbs else Nat.toDigits 10 x.natAbs

theorem notMem_decimal {c : Char} (hdigit : c.isDigit = false) (hminus : c ≠ '-') (x : ℤ) :
    c ∉ decimal x := by
  have hdigits : ∀ n : ℕ, c ∉ Nat.toDigits 10 n := by
    intro n hmem
    rw [Nat.isDigit_of_mem_toDigits (by decide) (by decide) hmem] at hdigit
    cases hdigit
  unfold decimal
  split_ifs
  · exact List.not_mem_cons_of_ne_of_not_mem hminus (hdigits _)
  · exact hdigits _

theorem decimal_natCast (n : ℕ) : decimal n = Nat.toDigits 10 n := by
  simp [decimal]

theorem decimal_digits (n : ℕ) : decimal n ≠ [] ∧ (∀ c ∈ decimal n, c.isDigit = true) ∧
    Nat.ofDigitChars 10 (decimal n) 0 = n := by
  rw [decimal_natCast]
  refine ⟨Nat.toDigits_ne_nil, ?_, Nat.ofDigitChars_ten_toDigits⟩
  intro c hc
  exact Nat.isDigit_of_mem_toDigits (by decide) (by decide) hc

theorem length_decimal {n k : ℕ} (hk : 0 < k) (h : n < 10 ^ k) : (decimal n).length ≤ k := by
  rw [decimal_natCast]
  exact (Nat.length_toDigits_le_iff (by decide) hk).mpr h

theorem ofDigitChars_lt {n : ℕ} {front back : List Char} (h : front ++ back = Nat.toDigits 10 n)
    (hfront : front ≠ []) (hback : back ≠ []) : Nat.ofDigitChars 10 front 0 < n := by
  induction n using Nat.base_induction 10 (by decide) generalizing back with
  | single m hm =>
    have hlen := congrArg List.length h
    rw [Nat.toDigits_of_lt_base hm, List.length_append, List.length_singleton] at hlen
    have hf := List.length_pos_iff.mpr hfront
    have hb := List.length_pos_iff.mpr hback
    omega
  | digit m k hk hm ih =>
    rw [← Nat.toDigits_append_toDigits (by decide) hm hk, Nat.toDigits_of_lt_base hk] at h
    obtain ⟨init, last, rfl⟩ : ∃ init last, back = init ++ [last] :=
      ⟨_, _, (List.dropLast_append_getLast hback).symm⟩
    rw [← List.append_assoc] at h
    obtain ⟨hinit, -⟩ := List.append_inj' h rfl
    cases init with
    | nil =>
      rw [List.append_nil] at hinit
      rw [hinit, Nat.ofDigitChars_ten_toDigits]
      omega
    | cons c init =>
      have hless := ih hinit (by simp)
      omega

theorem decimal_injective {x y : ℤ} (h : decimal x = decimal y) : x = y := by
  have hdigits : ∀ m n : ℕ, Nat.toDigits 10 m = Nat.toDigits 10 n → m = n := by
    intro m n hmn
    rw [← Nat.ofDigitChars_ten_toDigits (n := m), hmn, Nat.ofDigitChars_ten_toDigits]
  have hminus : ∀ m n : ℕ, '-' :: Nat.toDigits 10 m ≠ Nat.toDigits 10 n := by
    intro m n hmn
    have hdigit := Nat.isDigit_of_mem_toDigits (b := 10) (n := n) (by decide) (by decide)
      (hmn ▸ List.mem_cons_self)
    exact absurd hdigit (by decide)
  unfold decimal at h
  split_ifs at h with hx hy hy
  · have habs := hdigits _ _ (List.cons.inj h).2
    omega
  · exact absurd h (hminus _ _)
  · exact absurd h.symm (hminus _ _)
  · have habs := hdigits _ _ h
    omega

/-! ### Numbers that are read -/

def digitsValue (digits : List Char) : ℤ :=
  digits.foldl (fun v c => v * 10 + (c.toNat - '0'.toNat : ℕ)) 0

/-- The optional sign that `strtol` reads, and what follows it. -/
def readSign : List Char → ℤ × List Char
  | '-' :: rest => (-1, rest)
  | '+' :: rest => (1, rest)
  | rest => (1, rest)

/-- The range of `long`, to which `strtol` clamps. -/
def clampLong (v : ℤ) : ℤ := max (-9223372036854775808) (min v 9223372036854775807)

/-- White space, a sign and digits; no digit is a matching failure. -/
def scanNumber (input : List Char) : Option (ℤ × List Char) :=
  let (sign, rest) := readSign (input.dropWhile isSpace)
  if rest.takeWhile Char.isDigit = [] then none
  else some (clampLong (sign * digitsValue (rest.takeWhile Char.isDigit)),
    rest.dropWhile Char.isDigit)

def intValue (text : List Char) : Option ℤ :=
  let (sign, digits) := readSign text
  if digits = [] ∨ digits.all Char.isDigit = false then none else some (sign * digitsValue digits)

theorem digitsValue_eq (ds : List Char) : digitsValue ds = (Nat.ofDigitChars 10 ds 0 : ℕ) := by
  have hfold : ∀ (ds : List Char) (v : ℕ),
      ds.foldl (fun (v : ℤ) c => v * 10 + ((c.toNat - '0'.toNat : ℕ) : ℤ)) v =
        (Nat.ofDigitChars 10 ds v : ℕ) := by
    intro ds
    induction ds with
    | nil => simp
    | cons c ds ih =>
      intro v
      rw [List.foldl_cons, Nat.ofDigitChars_cons, ← ih]
      congr 1
      push_cast
      ring
  exact hfold ds 0

theorem digitsValue_append (a b : List Char) :
    digitsValue (a ++ b) = 10 ^ b.length * digitsValue a + digitsValue b := by
  rw [digitsValue_eq, digitsValue_eq, digitsValue_eq, Nat.ofDigitChars_append,
    Nat.ofDigitChars_eq_ofDigitChars_zero]
  push_cast
  rfl

theorem digitsValue_nonneg (ds : List Char) : 0 ≤ digitsValue ds := by
  rw [digitsValue_eq]
  exact Int.natCast_nonneg _

theorem clampLong_of_lt {n : ℕ} (h : n < 2 ^ 63) : clampLong n = n := by
  unfold clampLong
  omega

theorem stored_of_range {v : ℤ} (hlo : 0 ≤ v) (hhi : v ≤ 2147483647) : int32 (clampLong v) = v := by
  have hclamp : clampLong v = v := by
    unfold clampLong
    omega
  rw [hclamp]
  exact int32_of_range hlo hhi

theorem readSign_of_isDigit {c : Char} (h : c.isDigit = true) (rest : List Char) :
    readSign (c :: rest) = (1, c :: rest) := by
  unfold readSign
  split
  · rename_i heq
    obtain ⟨rfl, -⟩ := List.cons.inj heq
    exact absurd h (by decide)
  · rename_i heq
    obtain ⟨rfl, -⟩ := List.cons.inj heq
    exact absurd h (by decide)
  · rfl

theorem scanNumber_digits {ds x : List Char} (hne : ds ≠ []) (hds : ∀ c ∈ ds, c.isDigit = true)
    (hx : x.takeWhile Char.isDigit = []) :
    scanNumber (ds ++ x) = some (clampLong (Nat.ofDigitChars 10 ds 0 : ℕ), x) := by
  obtain ⟨c, rest, rfl⟩ := List.exists_cons_of_ne_nil hne
  have hc := hds c List.mem_cons_self
  have hdrop : (c :: rest ++ x).dropWhile isSpace = c :: rest ++ x := by
    rw [List.cons_append, List.dropWhile_cons_of_neg (by simp [isSpace_of_isDigit hc])]
  have htake : (c :: rest ++ x).takeWhile Char.isDigit = c :: rest := by
    rw [List.takeWhile_append_of_pos hds, hx, List.append_nil]
  have hrest : (c :: rest ++ x).dropWhile Char.isDigit = x := by
    have hsplit := List.takeWhile_append_dropWhile (p := Char.isDigit) (l := c :: rest ++ x)
    rw [htake] at hsplit
    exact List.append_cancel_left hsplit
  have hsign : readSign (c :: rest ++ x) = (1, c :: rest ++ x) := readSign_of_isDigit hc _
  simp only [scanNumber, hdrop, hsign, htake, hrest]
  rw [if_neg (by simp), one_mul, digitsValue_eq]

theorem scanNumber_length {input rest : List Char} {v : ℤ}
    (h : scanNumber input = some (v, rest)) : rest.length ≤ input.length := by
  have hsign : ∀ x : List Char, (readSign x).2.length ≤ x.length := by
    intro x
    unfold readSign
    split <;> simp
  simp only [scanNumber, Option.ite_none_left_eq_some, Option.some.injEq, Prod.mk.injEq] at h
  obtain ⟨-, -, rfl⟩ := h
  calc ((readSign (input.dropWhile isSpace)).2.dropWhile Char.isDigit).length
      ≤ (readSign (input.dropWhile isSpace)).2.length := (List.dropWhile_suffix _).length_le
    _ ≤ (input.dropWhile isSpace).length := hsign _
    _ ≤ input.length := (List.dropWhile_suffix _).length_le

/-! ### The texts of a number -/

def SignText (t : List Char) (sign : ℤ) : Prop :=
  (t = [] ∧ sign = 1) ∨ (t = ['+'] ∧ sign = 1) ∨ (t = ['-'] ∧ sign = -1)

theorem readSign_signText {t ds : List Char} {sign : ℤ} (ht : SignText t sign) (hne : ds ≠ [])
    (hds : Run Char.isDigit ds) (rest : List Char) :
    readSign (t ++ (ds ++ rest)) = (sign, ds ++ rest) := by
  obtain ⟨c, tail, rfl⟩ := List.exists_cons_of_ne_nil hne
  obtain ⟨rfl, rfl⟩ | ⟨rfl, rfl⟩ | ⟨rfl, rfl⟩ := ht
  · exact readSign_of_isDigit (hds c List.mem_cons_self) _
  · rfl
  · rfl

theorem exists_signText (s : List Char) :
    ∃ t, SignText t (readSign s).1 ∧ s = t ++ (readSign s).2 := by
  unfold readSign
  split
  · exact ⟨['-'], .inr (.inr ⟨rfl, rfl⟩), rfl⟩
  · exact ⟨['+'], .inr (.inl ⟨rfl, rfl⟩), rfl⟩
  · exact ⟨[], .inl ⟨rfl, rfl⟩, rfl⟩

theorem intValue_signText {t ds : List Char} {sign : ℤ} (ht : SignText t sign) (hne : ds ≠ [])
    (hds : Run Char.isDigit ds) : intValue (t ++ ds) = some (sign * digitsValue ds) := by
  have hread := readSign_signText ht hne hds []
  rw [List.append_nil] at hread
  have hall : ds.all Char.isDigit = true := List.all_eq_true.mpr hds
  simp [intValue, hread, hne, hall]

theorem exists_of_intValue {w : List Char} {u : ℤ} (h : intValue w = some u) :
    ∃ t sign ds, SignText t sign ∧ ds ≠ [] ∧ Run Char.isDigit ds ∧ w = t ++ ds ∧
      u = sign * digitsValue ds := by
  obtain ⟨t, ht, hw⟩ := exists_signText w
  simp only [intValue] at h
  split_ifs at h with hbad
  simp only [not_or, Bool.not_eq_false] at hbad
  exact ⟨t, _, _, ht, hbad.1, List.all_eq_true.mp hbad.2, hw, (Option.some.inj h).symm⟩

theorem isSpace_signText {t : List Char} {sign : ℤ} (ht : SignText t sign) :
    ∀ c ∈ t, isSpace c = false := by
  intro c hc
  obtain ⟨rfl, -⟩ | ⟨rfl, -⟩ | ⟨rfl, -⟩ := ht
  · cases hc
  · rw [List.mem_singleton.mp hc]
    decide
  · rw [List.mem_singleton.mp hc]
    decide

theorem isSpace_of_intValue {w : List Char} {u : ℤ} (h : intValue w = some u) :
    ∀ c ∈ w, isSpace c = false := by
  obtain ⟨t, sign, ds, ht, -, hds, rfl, -⟩ := exists_of_intValue h
  intro c hc
  rcases List.mem_append.mp hc with hsign | hdigit
  · exact isSpace_signText ht c hsign
  · exact isSpace_of_isDigit (hds c hdigit)

theorem ne_nil_of_intValue {w : List Char} {u : ℤ} (h : intValue w = some u) : w ≠ [] := by
  obtain ⟨t, sign, ds, -, hne, -, rfl, -⟩ := exists_of_intValue h
  exact List.append_ne_nil_of_right_ne_nil t hne

theorem isInk_intValue {w : List Char} {u : ℤ} (h : intValue w = some u) : Run isInk w := by
  intro c hc
  simp [isInk, isSpace_of_intValue h c hc]

theorem scanNumber_intValue {b w rest : List Char} {u : ℤ} (hb : Blank b)
    (hw : intValue w = some u) (hrest : Stops Char.isDigit rest) :
    scanNumber (b ++ (w ++ rest)) = some (clampLong u, rest) := by
  have hstops : Stops isSpace (w ++ rest) :=
    (stops_append (ne_nil_of_intValue hw) rest).mpr (stops_of_forall (isSpace_of_intValue hw))
  obtain ⟨t, sign, ds, ht, hne, hds, rfl, rfl⟩ := exists_of_intValue hw
  simp only [scanNumber, dropWhile_run hb hstops]
  rw [List.append_assoc, readSign_signText ht hne hds]
  simp only [takeWhile_run hds hrest, dropWhile_run hds hrest, if_neg hne]

theorem exists_of_scanNumber {x rest : List Char} {v : ℤ} (h : scanNumber x = some (v, rest)) :
    ∃ b w u, Blank b ∧ intValue w = some u ∧ v = clampLong u ∧ Stops Char.isDigit rest ∧
      x = b ++ (w ++ rest) := by
  obtain ⟨t, ht, htext⟩ := exists_signText (x.dropWhile isSpace)
  simp only [scanNumber] at h
  split_ifs at h with hnone
  obtain ⟨rfl, rfl⟩ := Prod.mk.inj (Option.some.inj h)
  refine ⟨x.takeWhile isSpace, _, _, run_takeWhile x,
    intValue_signText ht hnone (run_takeWhile _), rfl, stops_dropWhile _, ?_⟩
  rw [List.append_assoc, List.takeWhile_append_dropWhile, ← htext,
    List.takeWhile_append_dropWhile]

theorem exists_of_intValue_pos {w : List Char} {u : ℤ} (h : intValue w = some u) (hu : 1 ≤ u) :
    ∃ t ds, (t = [] ∨ t = ['+']) ∧ ds ≠ [] ∧ Run Char.isDigit ds ∧ w = t ++ ds ∧
      u = digitsValue ds := by
  obtain ⟨t, sign, ds, ht, hne, hds, rfl, rfl⟩ := exists_of_intValue h
  have hnonneg := digitsValue_nonneg ds
  obtain ⟨rfl, rfl⟩ | ⟨rfl, rfl⟩ | ⟨rfl, rfl⟩ := ht
  · exact ⟨[], ds, .inl rfl, hne, hds, rfl, one_mul _⟩
  · exact ⟨['+'], ds, .inr rfl, hne, hds, rfl, one_mul _⟩
  · omega

theorem intValue_suffix {r w : List Char} {u v : ℤ} (hr : r ≠ [])
    (hall : intValue (r ++ w) = some u)
    (hw : intValue w = some v) (hu : 1 ≤ u) : 0 ≤ v ∧ v ≤ u := by
  obtain ⟨t, ds, ht, -, hds, htext, rfl⟩ := exists_of_intValue_pos hall hu
  obtain ⟨front, rfl⟩ : ∃ front, ds = front ++ w := by
    obtain ⟨c, r, rfl⟩ := List.exists_cons_of_ne_nil hr
    rcases ht with rfl | rfl
    · exact ⟨c :: r, htext.symm⟩
    · exact ⟨r, (List.cons.inj htext).2.symm⟩
  have hdigits : Run Char.isDigit w := fun c hc => hds c (List.mem_append_right _ hc)
  have hvalue : intValue w = some (1 * digitsValue w) :=
    intValue_signText (.inl ⟨rfl, rfl⟩) (ne_nil_of_intValue hw) hdigits
  rw [hw, one_mul] at hvalue
  obtain rfl := Option.some.inj hvalue
  rw [digitsValue_append]
  have hfront : 0 ≤ 10 ^ w.length * digitsValue front :=
    mul_nonneg (by positivity) (digitsValue_nonneg front)
  exact ⟨digitsValue_nonneg w, by omega⟩

theorem intValue_longer {w r : List Char} {u v : ℤ} (hall : intValue (w ++ r) = some u)
    (hw : intValue w = some v) (hlo : 1 ≤ u) (hhi : u ≤ 2147483647)
    (hstored : int32 (clampLong v) = u) : r = [] := by
  obtain ⟨t, sign, ds, ht, hne, hds, rfl, rfl⟩ := exists_of_intValue hw
  have hvalue : u = sign * digitsValue (ds ++ r) := by
    rw [List.append_assoc, intValue, readSign_signText ht hne hds] at hall
    dsimp only at hall
    split_ifs at hall
    exact (Option.some.inj hall).symm
  have hall_nonneg := digitsValue_nonneg (ds ++ r)
  have hds_nonneg := digitsValue_nonneg ds
  have hr_nonneg := digitsValue_nonneg r
  obtain rfl : sign = 1 := by
    obtain ⟨-, rfl⟩ | ⟨-, rfl⟩ | ⟨-, rfl⟩ := ht
    · rfl
    · rfl
    · omega
  rw [one_mul, digitsValue_append] at hvalue
  by_contra hlonger
  obtain ⟨n, hn⟩ := Nat.exists_eq_add_one_of_ne_zero (mt List.length_eq_zero_iff.mp hlonger)
  have hpow : (1 : ℤ) ≤ 10 ^ n := one_le_pow₀ (by decide)
  have hgrows : 10 * digitsValue ds ≤ 10 ^ r.length * digitsValue ds := by
    rw [hn, pow_succ]
    exact mul_le_mul_of_nonneg_right (by omega) hds_nonneg
  rw [one_mul, stored_of_range hds_nonneg (by omega)] at hstored
  omega

theorem nul_notMem_intValue {w : List Char} {u : ℤ} (h : intValue w = some u) : '\x00' ∉ w := by
  obtain ⟨t, sign, ds, ht, -, hds, rfl, -⟩ := exists_of_intValue h
  have hsign : '\x00' ∉ t := by
    obtain ⟨rfl, -⟩ | ⟨rfl, -⟩ | ⟨rfl, -⟩ := ht <;> decide
  have hdigits : '\x00' ∉ ds := nul_notMem hds (by decide)
  simp [hsign, hdigits]

theorem decimal_of_pos {q : ℤ} (hpos : 0 < q) (hle : q ≤ intMax) :
    intValue (decimal q) = some q ∧ (decimal q).length ≤ 10 ∧
    ∀ c ∈ decimal q, c.isDigit = true := by
  obtain ⟨n, rfl⟩ := Int.eq_ofNat_of_zero_le hpos.le
  obtain ⟨hne, hdigits, hvalue⟩ := decimal_digits n
  refine ⟨?_, ?_, hdigits⟩
  · have hsign := intValue_signText (.inl ⟨rfl, rfl⟩) hne hdigits
    rwa [List.nil_append, one_mul, digitsValue_eq, hvalue] at hsign
  · apply length_decimal (by decide)
    simp only [intMax] at hle
    omega

/-- `(int)strtol(text, NULL, 10)` -/
def atoi (text : List Char) : ℤ := (scanNumber text).elim 0 (fun read => int32 read.1)

theorem atoi_le (text : List Char) : atoi text ≤ intMax := by
  rw [atoi]
  cases scanNumber text with
  | none => decide
  | some read => exact int32_le read.1

theorem atoi_decimal {x : ℤ} (hpos : 0 ≤ x) (hle : x ≤ intMax) : atoi (decimal x) = x := by
  obtain ⟨n, rfl⟩ := Int.eq_ofNat_of_zero_le hpos
  obtain ⟨hne, hdigits, hvalue⟩ := decimal_digits n
  have hlong : n < 2 ^ 63 := by
    simp only [intMax] at hle
    omega
  have hscan := scanNumber_digits hne hdigits (x := []) rfl
  rw [List.append_nil, hvalue, clampLong_of_lt hlong] at hscan
  rw [atoi, hscan, Option.elim_some]
  exact int32_of_range hpos hle

end SysProg.Lib

import Mathlib

/-!
# Lib — Ieee754

Binary interchange formats. A pattern is a natural number: one sign bit over
the exponent field over the fraction field. Its value is an integer multiple
of a unit, or an infinity; a pattern that is no NaN is determined by its value
and its sign (`Format.value_inj`).

Two orders on patterns follow, both with NaN on top: `rank` compares values
only, `key` also puts `+0` over `-0`.
-/

namespace EclipseNpu.Lib.Ieee754

/-- A finite value, or an infinity. -/
abbrev Extended := WithBot (WithTop ℤ)

instance : DecidableLT Extended
  | ⊥, ⊥ => isFalse (lt_irrefl _)
  | ⊥, (b : WithTop ℤ) => isTrue (WithBot.bot_lt_coe b)
  | (a : WithTop ℤ), ⊥ => isFalse not_lt_bot
  | (a : WithTop ℤ), (b : WithTop ℤ) =>
      match a, b with
      | ⊤, _ => isFalse fun h => not_top_lt (WithBot.coe_lt_coe.mp h)
      | (m : ℤ), ⊤ => isTrue (WithBot.coe_lt_coe.mpr (WithTop.coe_lt_top m))
      | (m : ℤ), (n : ℤ) =>
          decidable_of_iff (m < n) (WithBot.coe_lt_coe.trans WithTop.coe_lt_coe).symm

/-- A finite value from its sign and size. -/
def finite (negative : Bool) (size : Nat) : Extended :=
  (((if negative then -(size : ℤ) else (size : ℤ) : ℤ) : WithTop ℤ) : Extended)

theorem finite_inj {negative : Bool} {m n : Nat}
    (h : finite negative m = finite negative n) : m = n := by
  have hint := WithTop.coe_inj.mp (WithBot.coe_inj.mp h)
  cases negative <;> simp at hint <;> omega

theorem finite_eq_zero {negative : Bool} {n : Nat} : finite negative n = 0 ↔ n = 0 := by
  show ((_ : WithTop ℤ) : Extended) = ((0 : ℤ) : WithTop ℤ) ↔ _
  rw [WithBot.coe_inj, WithTop.coe_inj]
  cases negative <;> simp

/-! ## The size of a pattern -/

/-- The size of an unsigned pattern with `m` fraction bits, in units of its
least positive number. An exponent field 0 has no hidden bit. -/
def scale (m n : Nat) : Nat :=
  if n / 2 ^ m = 0 then n % 2 ^ m else (2 ^ m + n % 2 ^ m) * 2 ^ (n / 2 ^ m - 1)

theorem scale_fields {m e r : Nat} (hr : r < 2 ^ m) :
    scale m (e * 2 ^ m + r) = if e = 0 then r else (2 ^ m + r) * 2 ^ (e - 1) := by
  have hdiv : (e * 2 ^ m + r) / 2 ^ m = e := by
    rw [Nat.mul_comm, Nat.mul_add_div (Nat.two_pow_pos m), Nat.div_eq_of_lt hr,
      Nat.add_zero]
  have hmod : (e * 2 ^ m + r) % 2 ^ m = r := by
    rw [Nat.mul_comm, Nat.mul_add_mod, Nat.mod_eq_of_lt hr]
  rw [scale, hdiv, hmod]

/-- The next pattern is one unit in the last place away. -/
theorem scale_succ (m n : Nat) : scale m (n + 1) = scale m n + 2 ^ (n / 2 ^ m - 1) := by
  obtain ⟨e, r, hr, rfl⟩ : ∃ e r, r < 2 ^ m ∧ n = e * 2 ^ m + r :=
    ⟨n / 2 ^ m, n % 2 ^ m, Nat.mod_lt _ (Nat.two_pow_pos m), (Nat.div_add_mod' n _).symm⟩
  have hdiv : (e * 2 ^ m + r) / 2 ^ m = e := by
    rw [Nat.mul_comm, Nat.mul_add_div (Nat.two_pow_pos m), Nat.div_eq_of_lt hr,
      Nat.add_zero]
  rw [scale_fields hr, hdiv]
  rcases Nat.lt_or_ge (r + 1) (2 ^ m) with hnext | hlast
  · -- the next fraction
    rw [Nat.add_assoc, scale_fields hnext]
    split
    · rename_i he
      rw [he]
      rfl
    · rw [← Nat.add_assoc, Nat.add_mul _ 1, Nat.one_mul]
  · -- the next exponent
    have hcarry : e * 2 ^ m + r + 1 = (e + 1) * 2 ^ m + 0 := by
      rw [Nat.add_mul]
      omega
    rw [hcarry, scale_fields (Nat.two_pow_pos m), if_neg (Nat.succ_ne_zero e),
      Nat.add_sub_cancel, Nat.add_zero]
    split
    · rename_i he
      rw [he, Nat.pow_zero]
      omega
    · rename_i he
      obtain ⟨k, rfl⟩ := Nat.exists_eq_succ_of_ne_zero he
      rw [Nat.succ_sub_one, Nat.succ_eq_add_one, Nat.pow_succ 2 k, Nat.mul_comm (2 ^ k) 2,
        ← Nat.mul_assoc, ← Nat.succ_mul]
      congr 1
      omega

/-- **Sizes are in the order of the patterns.** -/
theorem scale_strictMono (m : Nat) : StrictMono (scale m) := by
  refine strictMono_nat_of_lt_succ fun n => ?_
  rw [scale_succ]
  exact Nat.lt_add_of_pos_right (Nat.two_pow_pos _)

theorem scale_zero (m : Nat) : scale m 0 = 0 := by simp [scale]

/-! ## Formats -/

/-- The widths of the two fields, and the unit of the values: the least
positive number is `2 ^ unit` units. -/
structure Format where
  ebits : Nat
  mbits : Nat
  unit : Nat

namespace Format

variable (f : Format) (x : Nat)

/-- The pattern of `-0`. -/
def signBit : Nat := 2 ^ (f.ebits + f.mbits)

def negative : Bool := decide (f.signBit ≤ x)

/-- The pattern without its sign. -/
def low : Nat := x % f.signBit

def exponent : Nat := f.low x / 2 ^ f.mbits

def fraction : Nat := f.low x % 2 ^ f.mbits

def isNaN : Bool := decide (f.exponent x = 2 ^ f.ebits - 1) && decide (f.fraction x ≠ 0)

def isInf : Bool := decide (f.exponent x = 2 ^ f.ebits - 1) && decide (f.fraction x = 0)

/-- The value of a pattern that is no NaN. -/
def value : Extended :=
  if f.isInf x then (if f.negative x then ⊥ else ⊤)
  else finite (f.negative x) (scale f.mbits (f.low x) * 2 ^ f.unit)

variable {f x} {y z : Nat}

/-- Without the sign bit a value is not negative. -/
theorem zero_le_value (h : f.negative x = false) : 0 ≤ f.value x := by
  unfold value
  rw [h]
  by_cases hinf : f.isInf x = true
  · rw [if_pos hinf]
    exact le_top
  · rw [if_neg hinf]
    exact WithBot.coe_le_coe.mpr (WithTop.coe_le_coe.mpr (Int.natCast_nonneg _))

theorem low_eq_of_isInf (h : f.isInf x = true) :
    f.low x = (2 ^ f.ebits - 1) * 2 ^ f.mbits := by
  obtain ⟨hexp, hfrac⟩ := (Bool.and_eq_true _ _).mp h
  rw [← of_decide_eq_true hexp, exponent,
    Nat.div_mul_cancel (Nat.dvd_of_mod_eq_zero (of_decide_eq_true hfrac))]

theorem isInf_of_value_eq (h : f.value x = f.value y) (hx : f.isInf x = true) :
    f.isInf y = true := by
  by_contra hy
  rw [value, value, if_pos hx, if_neg hy] at h
  split at h
  · exact WithBot.bot_ne_coe h
  · exact WithTop.top_ne_coe (WithBot.coe_inj.mp h)

theorem low_eq_of_value_eq (h : f.value x = f.value y)
    (hsign : f.negative x = f.negative y) : f.low x = f.low y := by
  by_cases hx : f.isInf x = true
  · rw [low_eq_of_isInf hx, low_eq_of_isInf (isInf_of_value_eq h hx)]
  · have hy : ¬ f.isInf y = true := fun hy => hx (isInf_of_value_eq h.symm hy)
    rw [value, value, if_neg hx, if_neg hy, hsign] at h
    exact (scale_strictMono f.mbits).injective
      (Nat.eq_of_mul_eq_mul_right (Nat.two_pow_pos _) (finite_inj h))

/-- **Value and sign determine a pattern.** -/
theorem value_inj (hx : x < 2 * f.signBit) (hy : y < 2 * f.signBit)
    (h : f.value x = f.value y) (hsign : f.negative x = f.negative y) : x = y := by
  have hlow := low_eq_of_value_eq h hsign
  have hdx := Nat.div_add_mod x f.signBit
  have hdy := Nat.div_add_mod y f.signBit
  have hneg : ∀ z, z < 2 * f.signBit →
      z / f.signBit = if f.negative z = true then 1 else 0 := by
    intro z hz
    have hpos : 0 < f.signBit := Nat.two_pow_pos _
    unfold negative
    split_ifs with hs
    · have hs := of_decide_eq_true hs
      rw [Nat.div_eq_iff hpos]
      omega
    · exact Nat.div_eq_of_lt (Nat.lt_of_not_le fun hle => hs (decide_eq_true hle))
  rw [hneg x hx, hsign, ← hneg y hy] at hdx
  unfold low at hlow
  omega

theorem eq_zero_of_finite_eq {m n : Nat} (h : finite true m = finite false n) : m = 0 := by
  have hint := WithTop.coe_inj.mp (WithBot.coe_inj.mp h)
  simp only [if_true, Bool.false_eq_true, if_false] at hint
  omega

/-- Equal values other than 0 have one sign. -/
theorem negative_eq_of_value_eq (h : f.value x = f.value y) (hne : f.value x ≠ 0) :
    f.negative x = f.negative y := by
  by_cases hx : f.isInf x = true
  · have hy := isInf_of_value_eq h hx
    rw [value, value, if_pos hx, if_pos hy] at h
    cases hsx : f.negative x <;> cases hsy : f.negative y
    · rfl
    · rw [hsx, hsy] at h
      exact absurd h (by decide)
    · rw [hsx, hsy] at h
      exact absurd h (by decide)
    · rfl
  · have hy : ¬ f.isInf y = true := fun hy => hx (isInf_of_value_eq h.symm hy)
    rw [value, if_neg hx] at h hne
    rw [value, if_neg hy] at h
    rw [Ne, finite_eq_zero] at hne
    cases hsx : f.negative x <;> cases hsy : f.negative y
    · rfl
    · rw [hsx, hsy] at h
      rw [eq_zero_of_finite_eq h.symm] at h
      exact absurd (finite_eq_zero.mp (h.trans (finite_eq_zero.mpr rfl))) hne
    · rw [hsx, hsy] at h
      exact absurd (eq_zero_of_finite_eq h) hne
    · rfl

/-! ### A pattern from its fields -/

/-- Sign `s`, exponent `e` and fraction `r` make up the pattern `x`. -/
structure Fields (f : Format) (x s e r : Nat) : Prop where
  word : x = s * f.signBit + e * 2 ^ f.mbits + r
  sign_lt : s < 2
  exp_lt : e < 2 ^ f.ebits
  frac_lt : r < 2 ^ f.mbits

namespace Fields

variable {s e r : Nat}

theorem low_lt (h : f.Fields x s e r) : e * 2 ^ f.mbits + r < f.signBit := by
  have hmul := Nat.mul_le_mul_right (2 ^ f.mbits) (Nat.succ_le_of_lt h.exp_lt)
  have hr := h.frac_lt
  rw [Nat.succ_mul] at hmul
  rw [signBit, Nat.pow_add]
  omega

theorem low_eq (h : f.Fields x s e r) : f.low x = e * 2 ^ f.mbits + r := by
  rw [low, h.word, Nat.add_assoc, Nat.mul_comm s, Nat.mul_add_mod,
    Nat.mod_eq_of_lt h.low_lt]

theorem exponent_eq (h : f.Fields x s e r) : f.exponent x = e := by
  rw [exponent, h.low_eq, Nat.mul_comm, Nat.mul_add_div (Nat.two_pow_pos _),
    Nat.div_eq_of_lt h.frac_lt, Nat.add_zero]

theorem fraction_eq (h : f.Fields x s e r) : f.fraction x = r := by
  rw [fraction, h.low_eq, Nat.mul_comm, Nat.mul_add_mod, Nat.mod_eq_of_lt h.frac_lt]

theorem negative_eq (h : f.Fields x s e r) : f.negative x = decide (s = 1) := by
  have hlow := h.low_lt
  have hs := h.sign_lt
  rw [negative, h.word, decide_eq_decide]
  obtain rfl | rfl : s = 0 ∨ s = 1 := by omega
  · omega
  · omega

theorem isNaN_eq (h : f.Fields x s e r) :
    f.isNaN x = (decide (e = 2 ^ f.ebits - 1) && decide (r ≠ 0)) := by
  rw [isNaN, h.exponent_eq, h.fraction_eq]

theorem value_eq (h : f.Fields x s e r) :
    f.value x = if e = 2 ^ f.ebits - 1 ∧ r = 0 then (if s = 1 then ⊥ else ⊤)
      else finite (decide (s = 1))
        ((if e = 0 then r else (2 ^ f.mbits + r) * 2 ^ (e - 1)) * 2 ^ f.unit) := by
  have hinf : f.isInf x = true ↔ e = 2 ^ f.ebits - 1 ∧ r = 0 := by
    rw [isInf, h.exponent_eq, h.fraction_eq, Bool.and_eq_true, decide_eq_true_iff,
      decide_eq_true_iff]
  simp only [value, hinf, h.negative_eq, decide_eq_true_eq, h.low_eq,
    scale_fields h.frac_lt]

end Fields

/-! ## Two orders -/

variable (f x) in
/-- By value, NaN above all. -/
def rank : WithTop Extended := if f.isNaN x then ⊤ else (f.value x : WithTop Extended)

variable (f x) in
/-- By value, then by sign, NaN above all. -/
def key : WithTop (Extended ×ₗ Bool) :=
  if f.isNaN x then ⊤ else ((toLex (f.value x, !f.negative x) : Extended ×ₗ Bool) : WithTop _)

theorem rank_eq_top : f.rank x = ⊤ ↔ f.isNaN x = true := by
  unfold rank
  split <;> simp [*]

theorem key_eq_top : f.key x = ⊤ ↔ f.isNaN x = true := by
  unfold key
  split <;> simp [*]

theorem rank_of_not_isNaN (h : f.isNaN x = false) : f.rank x = (f.value x : WithTop Extended) := by
  rw [rank, h]
  rfl

theorem key_of_not_isNaN (h : f.isNaN x = false) :
    f.key x = ((toLex (f.value x, !f.negative x) : Extended ×ₗ Bool) : WithTop _) := by
  rw [key, h]
  rfl

theorem key_inj (hx : x < 2 * f.signBit) (hy : y < 2 * f.signBit)
    (hnan : f.isNaN x = false) (h : f.key x = f.key y) : x = y := by
  have hnan' : f.isNaN y = false := by
    rw [Bool.eq_false_iff, Ne, ← key_eq_top, ← h, key_eq_top, hnan]
    decide
  rw [key_of_not_isNaN hnan, key_of_not_isNaN hnan', WithTop.coe_inj] at h
  obtain ⟨hvalue, hsign⟩ := Prod.mk.inj (toLex_inj.mp h)
  exact value_inj hx hy hvalue (Bool.not_inj hsign)

theorem rank_le_of_key_le (h : f.key x ≤ f.key y) : f.rank x ≤ f.rank y := by
  cases hy : f.isNaN y with
  | true =>
      rw [rank_eq_top.mpr hy]
      exact le_top
  | false =>
      cases hx : f.isNaN x with
      | true =>
          rw [key_eq_top.mpr hx, top_le_iff, key_eq_top, hy] at h
          cases h
      | false =>
          rw [key_of_not_isNaN hx, key_of_not_isNaN hy, WithTop.coe_le_coe,
            Prod.Lex.toLex_le_toLex] at h
          rw [rank_of_not_isNaN hx, rank_of_not_isNaN hy, WithTop.coe_le_coe]
          rcases h with h | ⟨h, -⟩
          · exact h.le
          · exact h.le

theorem rank_eq_of_key_eq (h : f.key x = f.key y) : f.rank x = f.rank y :=
  le_antisymm (rank_le_of_key_le h.le) (rank_le_of_key_le h.ge)

theorem rank_max (h : f.key z = max (f.key x) (f.key y)) :
    f.rank z = max (f.rank x) (f.rank y) := by
  rcases le_total (f.key x) (f.key y) with hle | hle
  · rw [max_eq_right hle] at h
    rw [max_eq_right (rank_le_of_key_le hle), rank_eq_of_key_eq h]
  · rw [max_eq_left hle] at h
    rw [max_eq_left (rank_le_of_key_le hle), rank_eq_of_key_eq h]

end Format

end EclipseNpu.Lib.Ieee754

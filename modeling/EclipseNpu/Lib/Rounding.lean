import EclipseNpu.Lib.Ieee754

/-!
# Lib — Rounding

Round to nearest, ties to even, on sizes. The pattern of infinity has a size
too, the one the number after the largest would have, so that overflow is the
last rounding step and not a rule of its own.

A quotient that goes up on more than half a unit, and on half a unit when it
is odd, rounds (`Format.Rounds.ofQuotient`); roundings are monotone
(`Format.Rounds.mono`).
-/

namespace EclipseNpu.Lib.Ieee754

/-- The distance of two sizes. -/
def gap (a b : Nat) : Nat := (a - b) + (b - a)

/-- Round a quotient up: on more than half a unit of `2 ^ s`, and on half a unit
when the quotient is odd. -/
def roundsUp (s rem quotient : Nat) : Bool :=
  decide (2 ^ (s - 1) < rem ∨ (rem = 2 ^ (s - 1) ∧ quotient % 2 = 1))

/-- Nothing dropped, nothing to round. -/
theorem roundsUp_zero (s n : Nat) : roundsUp s 0 n = false := by
  rw [roundsUp, decide_eq_false_iff_not]
  have := Nat.two_pow_pos (s - 1)
  omega

namespace Format

variable (f : Format)

/-- The unsigned pattern of infinity. -/
def infinity : Nat := (2 ^ f.ebits - 1) * 2 ^ f.mbits

/-- The size of an unsigned pattern. -/
def size (n : Nat) : Nat := scale f.mbits n * 2 ^ f.unit

/-- **The size `z` rounds to the unsigned pattern `n`**: to infinity from halfway
after the largest number on, otherwise to the nearest number, the even one of two
that are as near. -/
structure Rounds (z n : Nat) : Prop where
  le : n ≤ f.infinity
  overflow : n = f.infinity ↔ f.size (f.infinity - 1) + f.size f.infinity ≤ 2 * z
  nearest : n < f.infinity → ∀ m < f.infinity, gap z (f.size n) ≤ gap z (f.size m)
  even : n < f.infinity → ∀ m < f.infinity, m ≠ n →
    gap z (f.size m) = gap z (f.size n) → n % 2 = 0

variable {f}

theorem size_strictMono : StrictMono f.size := by
  intro m n h
  exact Nat.mul_lt_mul_of_pos_right (scale_strictMono _ h) (Nat.two_pow_pos _)

theorem size_le {m n : Nat} (h : m ≤ n) : f.size m ≤ f.size n :=
  size_strictMono.monotone h

theorem size_zero : f.size 0 = 0 := by rw [size, scale_zero, Nat.zero_mul]

/-- One unit in the last place. -/
theorem size_succ (n : Nat) :
    f.size (n + 1) = f.size n + 2 ^ (n / 2 ^ f.mbits - 1) * 2 ^ f.unit := by
  rw [size, scale_succ, Nat.add_mul]
  rfl

/-- A format with fraction bits ends on an even pattern. -/
theorem infinity_even (h : 0 < f.mbits) : f.infinity % 2 = 0 := by
  obtain ⟨k, hk⟩ := Nat.exists_eq_succ_of_ne_zero h.ne'
  rw [infinity, hk, Nat.pow_succ, ← Nat.mul_assoc, Nat.mul_mod_left]

namespace Rounds

variable {z z' n n' : Nat}

/-- Not past the middle: the lower neighbour. -/
theorem down (hbits : 0 < f.mbits) (hn : n < f.infinity) (hlo : f.size n ≤ z)
    (hhi : 2 * z ≤ f.size n + f.size (n + 1))
    (heven : 2 * z = f.size n + f.size (n + 1) → n % 2 = 0) : f.Rounds z n := by
  have hinf := infinity_even hbits
  refine ⟨hn.le, ⟨fun h => absurd h hn.ne, fun h => ?_⟩, fun _ m hm => ?_,
    fun _ m hm hne heq => ?_⟩
  · -- the largest number is odd, so it does not win the tie with infinity
    rcases Nat.lt_or_ge (n + 1) f.infinity with hlt | hge
    · have hlast := size_le (f := f) (show n + 1 ≤ f.infinity - 1 by omega)
      have htop := size_strictMono (f := f) (show n < f.infinity from hn)
      have hstep := size_strictMono (f := f) (show n + 1 < f.infinity from hlt)
      omega
    · obtain rfl : n = f.infinity - 1 := by omega
      rw [Nat.sub_add_cancel (by omega)] at hhi heven
      have := heven (by omega)
      omega
  · rcases Nat.lt_trichotomy m n with h | rfl | h
    · have hm := size_strictMono (f := f) h
      unfold gap
      omega
    · exact Nat.le_refl _
    · have hm := size_le (f := f) (show n + 1 ≤ m from h)
      unfold gap
      omega
  · rcases Nat.lt_or_gt_of_ne hne with h | h
    · have hm := size_strictMono (f := f) h
      unfold gap at heq
      omega
    · have hm := size_le (f := f) (show n + 1 ≤ m from h)
      unfold gap at heq
      exact heven (by omega)

/-- Past the middle: the upper neighbour. -/
theorem up (hn : n < f.infinity) (hhi : z ≤ f.size (n + 1))
    (hlo : f.size n + f.size (n + 1) ≤ 2 * z)
    (hodd : 2 * z = f.size n + f.size (n + 1) → n % 2 = 1) : f.Rounds z (n + 1) := by
  refine ⟨hn, ⟨fun h => ?_, fun h => ?_⟩, fun hfin m hm => ?_, fun hfin m hm hne heq => ?_⟩
  · rw [← h, Nat.add_sub_cancel]
    exact hlo
  · by_contra hne
    have hlast := size_le (f := f) (show n + 1 ≤ f.infinity - 1 by omega)
    have htop := size_strictMono (f := f) (show n + 1 < f.infinity by omega)
    omega
  · rcases Nat.lt_trichotomy m (n + 1) with h | rfl | h
    · have hm := size_le (f := f) (show m ≤ n by omega)
      unfold gap
      omega
    · exact Nat.le_refl _
    · have hm := size_strictMono (f := f) h
      unfold gap
      omega
  · rcases Nat.lt_or_gt_of_ne hne with h | h
    · have hm := size_le (f := f) (show m ≤ n by omega)
      unfold gap at heq
      have := hodd (by omega)
      omega
    · have hm := size_strictMono (f := f) h
      unfold gap at heq
      omega

/-- Nothing is lost at or above the size of infinity. -/
theorem overflowed (h : f.size f.infinity ≤ z) : f.Rounds z f.infinity := by
  have hle := size_le (f := f) (Nat.sub_le f.infinity 1)
  exact ⟨Nat.le_refl _, ⟨fun _ => by omega, fun _ => rfl⟩,
    fun h => absurd h (Nat.lt_irrefl _), fun h => absurd h (Nat.lt_irrefl _)⟩

/-- **A quotient and its remainder.** `z` lies `rem` units above the pattern `n`,
of the `2 ^ s` up to the next pattern. -/
theorem ofQuotient {s u rem : Nat} (hbits : 0 < f.mbits) (hn : n < f.infinity)
    (hs : 1 ≤ s) (hz : z = f.size n + rem * u) (hrem : rem < 2 ^ s)
    (hstep : f.size (n + 1) = f.size n + 2 ^ s * u) :
    f.Rounds z (if roundsUp s rem n then n + 1 else n) := by
  obtain ⟨k, rfl⟩ : ∃ k, s = k + 1 := ⟨s - 1, by omega⟩
  have hu : 0 < u := by
    have hlt := size_strictMono (f := f) (Nat.lt_succ_self n)
    rw [Nat.succ_eq_add_one, hstep] at hlt
    exact Nat.pos_of_ne_zero fun h => by simp [h] at hlt
  have hhalf : 2 ^ (k + 1) * u = 2 * (2 ^ k * u) := by ring
  unfold roundsUp
  rw [Nat.add_sub_cancel]
  rcases Nat.lt_trichotomy rem (2 ^ k) with hlt | heq | hgt
  · have hmul := Nat.mul_lt_mul_of_pos_right hlt hu
    rw [if_neg (by simp only [decide_eq_true_eq]; omega)]
    exact down hbits hn (by omega) (by omega) fun h => by omega
  · rw [heq] at hz ⊢
    rcases Nat.mod_two_eq_zero_or_one n with hev | hodd
    · rw [if_neg (by simp only [decide_eq_true_eq]; omega)]
      exact down hbits hn (by omega) (by omega) fun _ => hev
    · rw [if_pos (decide_eq_true (.inr ⟨rfl, hodd⟩))]
      exact up hn (by omega) (by omega) fun _ => hodd
  · have hmul := Nat.mul_lt_mul_of_pos_right hgt hu
    have htop := Nat.mul_lt_mul_of_pos_right hrem hu
    rw [if_pos (decide_eq_true (.inl hgt))]
    exact up hn (by omega) (by omega) fun h => by omega

/-- Half of the least positive number and less goes to 0. -/
theorem underflowed (hbits : 0 < f.mbits) (hinf : 0 < f.infinity)
    (h : 2 * z ≤ f.size 1) : f.Rounds z 0 := by
  have h0 := size_zero (f := f)
  exact down hbits hinf (by omega) (by rw [h0, Nat.zero_add]; exact h) fun _ => rfl

theorem size_eq_zero (hinf : 0 < f.infinity) (h : f.Rounds 0 n) : f.size n = 0 := by
  have hpos := size_strictMono (f := f) hinf
  have hn : n < f.infinity := by
    refine Nat.lt_of_le_of_ne h.le fun heq => ?_
    have := h.overflow.mp heq
    omega
  have hnear := h.nearest hn 0 hinf
  rw [size_zero] at hnear
  unfold gap at hnear
  omega

/-- **Roundings are monotone.** -/
theorem mono (h : f.Rounds z n) (h' : f.Rounds z' n') (hz : z ≤ z') : n ≤ n' := by
  by_contra hlt
  have hlt : n' < n := Nat.lt_of_not_le hlt
  have hle := h.le
  have hn' : n' < f.infinity := by omega
  -- the smaller size would have overflowed alone
  have hn : n < f.infinity := by
    refine Nat.lt_of_le_of_ne hle fun heq => hn'.ne ?_
    have := h.overflow.mp heq
    exact h'.overflow.mpr (by omega)
  have hsize := size_strictMono (f := f) hlt
  have hnear := h.nearest hn n' hn'
  have hnear' := h'.nearest hn' n hn
  unfold gap at hnear hnear'
  -- both are in the middle of the two patterns, which are both even
  have heq : gap z (f.size n') = gap z (f.size n) := by
    unfold gap
    omega
  have heq' : gap z' (f.size n) = gap z' (f.size n') := by
    unfold gap
    omega
  have hev := h.even hn n' hn' (by omega) heq
  have hev' := h'.even hn' n hn (by omega) heq'
  -- but then the pattern between them is nearer
  have hbetween := h.nearest hn (n' + 1) (by omega)
  have hlo := size_strictMono (f := f) (Nat.lt_succ_self n')
  have hhi := size_strictMono (f := f) (show n' + 1 < n by omega)
  rw [Nat.succ_eq_add_one] at hlo
  unfold gap at hbetween heq
  omega

end Rounds

/-! ## Signed sizes -/

section Signed

variable {x y : Nat}

theorem low_div_add_mod : f.exponent x * 2 ^ f.mbits + f.fraction x = f.low x := by
  rw [exponent, fraction, Nat.mul_comm]
  exact Nat.div_add_mod _ _

theorem exponent_lt : f.exponent x < 2 ^ f.ebits := by
  rw [exponent]
  refine Nat.div_lt_of_lt_mul ?_
  rw [Nat.mul_comm, ← Nat.pow_add]
  exact Nat.mod_lt _ (Nat.two_pow_pos _)

/-- The patterns in order: the numbers, infinity, the NaNs. -/
theorem low_lt_infinity_iff : f.low x < f.infinity ↔ f.exponent x ≠ 2 ^ f.ebits - 1 := by
  rw [exponent, infinity, ← Nat.div_lt_iff_lt_mul (Nat.two_pow_pos _)]
  have := exponent_lt (f := f) (x := x)
  rw [exponent] at this
  omega

theorem low_eq_infinity_add (h : f.exponent x = 2 ^ f.ebits - 1) :
    f.low x = f.infinity + f.fraction x := by
  rw [← low_div_add_mod, h, infinity]

theorem isInf_iff : f.isInf x = true ↔ f.low x = f.infinity := by
  rw [isInf, Bool.and_eq_true, decide_eq_true_iff, decide_eq_true_iff]
  constructor
  · intro h
    rw [low_eq_infinity_add h.1, h.2, Nat.add_zero]
  · intro h
    have hexp : f.exponent x = 2 ^ f.ebits - 1 := by
      by_contra hne
      exact absurd h (low_lt_infinity_iff.mpr hne).ne
    have hlow := low_eq_infinity_add hexp
    exact ⟨hexp, by omega⟩

theorem isNaN_iff : f.isNaN x = true ↔ f.infinity < f.low x := by
  rw [isNaN, Bool.and_eq_true, decide_eq_true_iff, decide_eq_true_iff]
  constructor
  · intro h
    have hlow := low_eq_infinity_add h.1
    omega
  · intro h
    have hexp : f.exponent x = 2 ^ f.ebits - 1 := by
      by_contra hne
      exact absurd h (Nat.lt_asymm (low_lt_infinity_iff.mpr hne))
    have hlow := low_eq_infinity_add hexp
    exact ⟨hexp, by omega⟩

theorem low_le_infinity (h : f.isNaN x = false) : f.low x ≤ f.infinity := by
  rw [Bool.eq_false_iff, Ne, isNaN_iff] at h
  exact Nat.le_of_not_lt h

theorem low_lt_infinity (h : f.isNaN x = false) (hinf : f.isInf x = false) :
    f.low x < f.infinity := by
  refine Nat.lt_of_le_of_ne (low_le_infinity h) fun heq => ?_
  rw [isInf_iff.mpr heq] at hinf
  cases hinf

variable (f x) in
/-- The size with the sign of the pattern; infinity counts as the number after
the largest. -/
def signed : ℤ := if f.negative x then -(f.size (f.low x) : ℤ) else f.size (f.low x)

theorem value_of_finite (h : f.isInf x = false) :
    f.value x = ((f.signed x : WithTop ℤ) : Extended) := by
  rw [value, h]
  rfl

theorem abs_signed : |f.signed x| = f.size (f.low x) := by
  unfold signed
  split
  · rw [abs_neg, Nat.abs_cast]
  · rw [Nat.abs_cast]

theorem size_low_le (h : f.isNaN x = false) : f.size (f.low x) ≤ f.size f.infinity :=
  size_le (low_le_infinity h)

theorem size_low_lt (h : f.isNaN x = false) (hinf : f.isInf x = false) :
    f.size (f.low x) < f.size f.infinity :=
  size_strictMono (low_lt_infinity h hinf)

theorem signed_of_isInf (h : f.isInf x = true) :
    f.signed x = if f.negative x then -(f.size f.infinity : ℤ) else f.size f.infinity := by
  rw [signed, isInf_iff.mp h]

/-- **The order of the values is the order of the signed sizes.** -/
theorem value_le_iff (hx : f.isNaN x = false) (hy : f.isNaN y = false)
    (hpos : 0 < f.infinity) : f.value x ≤ f.value y ↔ f.signed x ≤ f.signed y := by
  have htop : 0 < f.size f.infinity := by
    have := size_strictMono (f := f) hpos
    rwa [size_zero] at this
  have hxle := size_low_le hx
  have hyle := size_low_le hy
  cases hxi : f.isInf x with
  | true =>
      rw [signed_of_isInf hxi]
      cases hyi : f.isInf y with
      | true =>
          rw [signed_of_isInf hyi, value, value, if_pos hxi, if_pos hyi]
          cases f.negative x <;> cases f.negative y <;> (simp; try omega)
      | false =>
          have hylt := size_low_lt hy hyi
          rw [value_of_finite hyi, value, if_pos hxi]
          unfold signed
          cases f.negative x <;> cases f.negative y <;> simp <;> omega
  | false =>
      have hxlt := size_low_lt hx hxi
      rw [value_of_finite hxi]
      cases hyi : f.isInf y with
      | true =>
          rw [signed_of_isInf hyi, value, if_pos hyi]
          unfold signed
          cases f.negative x <;> cases f.negative y <;> simp <;> omega
      | false =>
          rw [value_of_finite hyi, WithBot.coe_le_coe, WithTop.coe_le_coe]

end Signed

end Format

end EclipseNpu.Lib.Ieee754

import EclipseNpu.Runtime.Dtype

/-!
# Runtime — Rounding

The narrowing conversions of `runtime/include/dtype.h` against IEEE rounding:
`fp32ToFp16` rounds every number to the nearest half, ties to even
(`fp32ToFp16_correct`); `fp32ToBf16` does so too, and its bare increment is wrong
on the NaNs at the two ends of the fraction (`fp32ToBf16_correct_iff`).
-/

namespace EclipseNpu.Runtime

open EclipseNpu.Lib.Ieee754

/-! ## bf16 -/

/-- The exponent field is that of fp32; the least positive number is `2 ^ -133`. -/
def bfloat16 : Format := ⟨8, 7, 16⟩

def bf16ToFp32 (b : UInt16) : UInt32 := b.toUInt32 <<< 16

def fp32ToBf16 (x : UInt32) : UInt16 :=
  let b := x >>> 16
  let rem := x &&& 0xFFFF
  let b := if rem > 0x8000 ∨ (rem = 0x8000 ∧ b &&& 1 ≠ 0) then b + 1 else b
  b.toUInt16

/-! ## What rounding means -/

/-- The number a finite pattern stands for. -/
def number (f : Format) (x : Nat) : ℚ := f.signed x / 2 ^ 149

/-- **The IEEE rounding of a float that is no NaN**: of its sign, infinity from
`limit` on, otherwise the nearest number of the format, the one with the even
fraction of two that are as near. -/
structure RoundsTo (f : Format) (limit : ℚ) (x : UInt32) (h : UInt16) : Prop where
  notNaN : f.isNaN h.toNat = false
  sign : f.negative h.toNat = binary32.negative x.toNat
  overflow : f.isInf h.toNat = true
    ↔ binary32.isInf x.toNat = true ∨ limit ≤ |number binary32 x.toNat|
  nearest : f.isInf h.toNat = false → ∀ y : UInt16, f.isNaN y.toNat = false →
    f.isInf y.toNat = false →
    |number binary32 x.toNat - number f h.toNat|
      ≤ |number binary32 x.toNat - number f y.toNat|
  even : f.isInf h.toNat = false → ∀ y : UInt16, f.isNaN y.toNat = false →
    f.isInf y.toNat = false → number f y.toNat ≠ number f h.toNat →
    |number binary32 x.toNat - number f y.toNat|
      = |number binary32 x.toNat - number f h.toNat| → f.fraction h.toNat % 2 = 0

/-- From `limit` on the largest number is no longer nearest. -/
def HasLimit (f : Format) (limit : ℚ) : Prop :=
  limit * 2 ^ 150 = f.size (f.infinity - 1) + f.size f.infinity

section RoundsTo

variable {f : Format} {x : UInt32} {h : UInt16} {n : Nat} {limit : ℚ}

/-- A pattern behind a sign. -/
structure Signed (f : Format) (x : UInt32) (h : UInt16) (n : Nat) : Prop where
  low : f.low h.toNat = n
  sign : f.negative h.toNat = binary32.negative x.toNat

theorem abs_number (f : Format) (x : Nat) : |number f x| = f.size (f.low x) / 2 ^ 149 := by
  rw [number, abs_div, abs_of_pos (show (0 : ℚ) < 2 ^ 149 by positivity), ← Int.cast_abs,
    Format.abs_signed, Int.cast_natCast]

/-- Of one sign, numbers are as far apart as their sizes. -/
theorem abs_signed_sub {g : Format} {a b : Nat} (hs : f.negative a = g.negative b) :
    |f.signed a - g.signed b| = (gap (f.size (f.low a)) (g.size (g.low b)) : ℤ) := by
  unfold Format.signed gap
  rw [hs]
  split
  · rw [Int.abs_eq_natAbs]
    omega
  · rw [Int.abs_eq_natAbs]
    omega

theorem abs_signed_sub_of_ne {g : Format} {a b : Nat} (hs : f.negative a ≠ g.negative b) :
    |f.signed a - g.signed b| = (f.size (f.low a) + g.size (g.low b) : ℤ) := by
  unfold Format.signed
  cases ha : f.negative a <;> cases hb : g.negative b
  · rw [ha, hb] at hs
    exact absurd rfl hs
  · simp only [Bool.false_eq_true, if_false, if_true, Int.abs_eq_natAbs]
    omega
  · simp only [Bool.false_eq_true, if_false, if_true, Int.abs_eq_natAbs]
    omega
  · rw [ha, hb] at hs
    exact absurd rfl hs

theorem abs_number_sub (f g : Format) (a b : Nat) :
    |number f a - number g b| = (|f.signed a - g.signed b| : ℤ) / 2 ^ 149 := by
  rw [number, number, ← sub_div, abs_div, abs_of_pos (show (0 : ℚ) < 2 ^ 149 by positivity),
    Int.cast_abs, Int.cast_sub]

theorem number_sub_le_iff (f g : Format) (a b c : Nat) :
    |number f a - number g b| ≤ |number f a - number g c|
      ↔ |f.signed a - g.signed b| ≤ |f.signed a - g.signed c| := by
  rw [abs_number_sub, abs_number_sub, div_le_div_iff_of_pos_right (by positivity),
    Int.cast_le]

theorem number_sub_eq_iff (f g : Format) (a b c : Nat) :
    |number f a - number g b| = |number f a - number g c|
      ↔ |f.signed a - g.signed b| = |f.signed a - g.signed c| := by
  rw [abs_number_sub, abs_number_sub, div_left_inj' (by positivity), Int.cast_inj]

/-- **From sizes to numbers.** -/
theorem roundsTo_of_rounds (hbits : 0 < f.mbits)
    (hwide : f.size f.infinity ≤ binary32.size binary32.infinity)
    (hlimit : HasLimit f limit) (hword : Signed f x h n)
    (hr : f.Rounds (binary32.size (binary32.low x.toNat)) n) : RoundsTo f limit x h := by
  obtain ⟨rfl, hsign⟩ := hword
  have hnum : f.isNaN h.toNat = false := by
    rw [Bool.eq_false_iff, Ne, Format.isNaN_iff]
    exact Nat.not_lt.mpr hr.le
  have hfin : f.isInf h.toNat = false → f.low h.toNat < f.infinity :=
    Format.low_lt_infinity hnum
  -- no further than 0 is
  have hzero : f.isInf h.toNat = false → gap (binary32.size (binary32.low x.toNat))
      (f.size (f.low h.toNat)) ≤ binary32.size (binary32.low x.toNat) := by
    intro hinf
    have hlt := hfin hinf
    have hnear := hr.nearest hlt 0 (by omega)
    rw [Format.size_zero] at hnear
    unfold gap at hnear ⊢
    omega
  refine ⟨hnum, hsign, ?_, fun hinf y hy hyinf => ?_, fun hinf y hy hyinf hne heq => ?_⟩
  · rw [Format.isInf_iff, hr.overflow, abs_number, le_div_iff₀ (by positivity)]
    have hcast : limit * 2 ^ 149 ≤ (binary32.size (binary32.low x.toNat) : ℚ)
        ↔ f.size (f.infinity - 1) + f.size f.infinity
          ≤ 2 * binary32.size (binary32.low x.toNat) := by
      rw [← Nat.cast_le (α := ℚ), Nat.cast_add, ← hlimit, Nat.cast_mul, pow_succ]
      push_cast
      constructor
      · intro h
        linarith
      · intro h
        linarith
    rw [hcast]
    constructor
    · exact fun h => .inr h
    · rintro (hinf | h)
      · rw [Format.isInf_iff.mp hinf]
        have := Format.size_le (f := f) (Nat.sub_le f.infinity 1)
        omega
      · exact h
  · rw [number_sub_le_iff, abs_signed_sub hsign.symm]
    by_cases hys : binary32.negative x.toNat = f.negative y.toNat
    · rw [abs_signed_sub hys]
      exact Int.ofNat_le.mpr (hr.nearest (hfin hinf) _ (Format.low_lt_infinity hy hyinf))
    · rw [abs_signed_sub_of_ne hys]
      have := hzero hinf
      omega
  · rw [number_sub_eq_iff, abs_signed_sub hsign.symm] at heq
    have hfraction : f.fraction h.toNat % 2 = f.low h.toNat % 2 := by
      rw [Format.fraction]
      exact Nat.mod_mod_of_dvd _ (dvd_pow_self 2 hbits.ne')
    rw [hfraction]
    have hlt := hfin hinf
    by_cases hys : binary32.negative x.toNat = f.negative y.toNat
    · have hylt : f.low y.toNat < f.infinity := Format.low_lt_infinity hy hyinf
      rw [abs_signed_sub hys] at heq
      refine hr.even hlt _ hylt (fun hlow => hne ?_) (Int.ofNat_inj.mp heq)
      rw [number, number, Format.signed, Format.signed, hlow, hsign, hys]
    · -- of the other sign only 0 is as near
      rw [abs_signed_sub_of_ne hys] at heq
      have hle := hzero hinf
      have hsize : f.size (f.low y.toNat) = 0 := by omega
      refine hr.even hlt 0 (by omega) (fun hlow => hne ?_) ?_
      · rw [number, number, Format.signed, Format.signed, hsize, ← hlow, Format.size_zero]
        simp
      · rw [Format.size_zero]
        unfold gap at heq ⊢
        omega

/-- Rounding keeps the order, on either side of 0. -/
theorem signed_le_of_rounds {y : UInt32} {h' : UInt16} {n' : Nat} (hinf : 0 < f.infinity)
    (hx : Signed f x h n) (hy : Signed f y h' n')
    (hrx : f.Rounds (binary32.size (binary32.low x.toNat)) n)
    (hry : f.Rounds (binary32.size (binary32.low y.toNat)) n')
    (hle : binary32.signed x.toNat ≤ binary32.signed y.toNat) :
    f.signed h.toNat ≤ f.signed h'.toNat := by
  obtain ⟨rfl, hxs⟩ := hx
  obtain ⟨rfl, hys⟩ := hy
  unfold Format.signed at hle ⊢
  rw [hxs, hys]
  cases hsx : binary32.negative x.toNat <;> cases hsy : binary32.negative y.toNat
  · simp only [hsx, hsy, Bool.false_eq_true, if_false] at hle ⊢
    exact Int.ofNat_le.mpr (Format.size_le (hrx.mono hry (Int.ofNat_le.mp hle)))
  · -- from a positive to a negative: both are 0
    simp only [hsx, hsy, Bool.false_eq_true, if_false, if_true] at hle ⊢
    have hx0 : binary32.size (binary32.low x.toNat) = 0 := by omega
    have hy0 : binary32.size (binary32.low y.toNat) = 0 := by omega
    rw [hx0] at hrx
    rw [hy0] at hry
    rw [hrx.size_eq_zero hinf, hry.size_eq_zero hinf]
    decide
  · simp only [hsx, hsy, Bool.false_eq_true, if_false, if_true] at hle ⊢
    omega
  · simp only [hsx, hsy, if_true] at hle ⊢
    have hsize : binary32.size (binary32.low y.toNat)
        ≤ binary32.size (binary32.low x.toNat) := by omega
    have := Format.size_le (f := f) (hry.mono hrx hsize)
    omega

end RoundsTo

/-! ## fp16 -/

section Fp16

variable {x : UInt32} {s e f : Nat}

/-- A normal float: the hidden bit, at the unit of its exponent. -/
theorem HasFields.size_normal (h : HasFields x s e f) (he : 0 < e) :
    binary32.size (binary32.low x.toNat) = (8388608 + f) * 2 ^ (e - 1) := by
  rw [h.fields.low_eq, Format.size, scale_fields h.fraction_lt, if_neg he.ne']
  exact Nat.mul_one _

theorem HasFields.size_subnormal (h : HasFields x s 0 f) :
    binary32.size (binary32.low x.toNat) = f := by
  rw [h.fields.low_eq, Format.size, scale_fields h.fraction_lt, if_pos rfl]
  exact Nat.mul_one _

theorem binary16_size {e m : Nat} (he : 0 < e) (hm : m < 1024) :
    binary16.size (e * 1024 + m) = (1024 + m) * 2 ^ (e - 1 + 125) := by
  rw [Format.size, show e * 1024 + m = e * 2 ^ binary16.mbits + m from rfl,
    scale_fields hm, if_neg he.ne', Nat.mul_assoc, Nat.pow_add]
  rfl

theorem binary16_size_subnormal {m : Nat} (hm : m < 1024) :
    binary16.size m = m * 2 ^ 125 := by
  have hscale := scale_fields (m := 10) (e := 0) hm
  rw [Nat.zero_mul, Nat.zero_add, if_pos rfl] at hscale
  rw [Format.size]
  exact congrArg (· * 2 ^ 125) hscale

theorem fp32ToFp16_overflow (h : HasFields x s e f) (h31 : 143 ≤ e) (he : e < 255) :
    (fp32ToFp16 x).toNat = s * 32768 + 31744 := by
  have hsign := h.sign
  have hexp := h.exp
  have hs := h.sign_lt
  unfold fp32ToFp16
  generalize x >>> 16 &&& 0x8000 = sign at hsign ⊢
  generalize x >>> 23 &&& 0xFF = exp at hexp ⊢
  have hfinite : exp ≠ 0xFF := by
    rintro rfl
    rw [show (0xFF : UInt32).toNat = 255 from rfl] at hexp
    omega
  have hnonzero : exp ≠ 0 := by
    rintro rfl
    rw [UInt32.toNat_zero] at hexp
    omega
  dsimp only
  rw [if_neg hfinite, if_neg hnonzero, if_pos (by omega), toNat_signed hsign hs (by decide)]
  rfl

theorem fp32ToFp16_underflow (h : HasFields x s e f) (h0 : 0 < e) (he : e ≤ 101) :
    (fp32ToFp16 x).toNat = s * 32768 := by
  have hsign := h.sign
  have hexp := h.exp
  have hs := h.sign_lt
  unfold fp32ToFp16
  generalize x >>> 16 &&& 0x8000 = sign at hsign ⊢
  generalize x >>> 23 &&& 0xFF = exp at hexp ⊢
  have hfinite : exp ≠ 0xFF := by
    rintro rfl
    rw [show (0xFF : UInt32).toNat = 255 from rfl] at hexp
    omega
  have hnonzero : exp ≠ 0 := by
    rintro rfl
    rw [UInt32.toNat_zero] at hexp
    omega
  dsimp only
  rw [if_neg hfinite, if_neg hnonzero, if_neg (by omega), if_pos (by omega),
    if_pos (by omega), UInt32.toNat_toUInt16, hsign]
  omega

theorem rounds_normal (h : HasFields x s (e + 112) f) (h0 : 0 < e) (h31 : e < 31)
    {n : Nat} (hn : n = e * 1024 + f / 8192) :
    binary16.Rounds (binary32.size (binary32.low x.toNat))
      (if roundsUp 13 (f % 8192) n then n + 1 else n) := by
  have hf := h.fraction_lt
  have hm : f / 8192 < 1024 := by omega
  have hsize : binary16.size n = (1024 + f / 8192) * 2 ^ 13 * 2 ^ (e + 112 - 1) := by
    rw [hn, binary16_size h0 hm, Nat.mul_assoc, ← Nat.pow_add]
    congr 2
    omega
  refine Format.Rounds.ofQuotient (u := 2 ^ (e + 112 - 1)) (by decide) ?_ (by decide) ?_
    (Nat.mod_lt _ (by decide)) ?_
  · show n < 31744
    omega
  · rw [h.size_normal (by omega), hsize, ← Nat.add_mul]
    congr 1
    omega
  · have hexp : n / 2 ^ binary16.mbits = e := by
      show n / 1024 = e
      omega
    rw [Format.size_succ, hexp, ← Nat.pow_add, ← Nat.pow_add]
    congr 2
    show e - 1 + 125 = _
    omega

theorem rounds_subnormal {k n rem : Nat} (h1 : 1 ≤ k) (hk : k ≤ 11)
    (h : HasFields x s (113 - k) f) (hn : n = (8388608 + f) / 2 ^ (13 + k))
    (hr : rem = (8388608 + f) % 2 ^ (13 + k)) :
    binary16.Rounds (binary32.size (binary32.low x.toNat))
      (if roundsUp (13 + k) rem n then n + 1 else n) := by
  have hf := h.fraction_lt
  have hsmall : n < 1024 := by
    rw [hn]
    refine Nat.div_lt_of_lt_mul ?_
    have := Nat.pow_le_pow_right (n := 2) (by decide) (show 14 ≤ 13 + k by omega)
    omega
  have hunit : 2 ^ 125 = 2 ^ (13 + k) * 2 ^ (113 - k - 1) := by
    rw [← Nat.pow_add]
    congr 1
    omega
  have hsize := binary16_size_subnormal hsmall
  refine Format.Rounds.ofQuotient (u := 2 ^ (113 - k - 1)) (by decide) ?_ (by omega) ?_
    ?_ ?_
  · show n < 31744
    omega
  · rw [h.size_normal (by omega), hsize, hunit, ← Nat.mul_assoc, ← Nat.add_mul, hn, hr,
      Nat.div_add_mod']
  · rw [hr]
    exact Nat.mod_lt _ (Nat.two_pow_pos _)
  · have hexp : n / 2 ^ binary16.mbits = 0 := Nat.div_eq_of_lt hsmall
    rw [Format.size_succ, hexp, ← hunit]
    rfl

/-- **Every number is rounded**, whatever branch its exponent takes. -/
theorem fp32ToFp16_rounds (hx : binary32.isNaN x.toNat = false) :
    ∃ n, (fp32ToFp16 x).toNat = x.toNat / 2147483648 * 32768 + n
      ∧ binary16.Rounds (binary32.size (binary32.low x.toNat)) n := by
  have hlt := x.toNat_lt
  have h : HasFields x (x.toNat / 2147483648) (x.toNat / 8388608 % 256)
      (x.toNat % 8388608) := ⟨by omega, by omega, by omega, by omega⟩
  generalize x.toNat / 2147483648 = s at h ⊢
  generalize x.toNat / 8388608 % 256 = e at h
  generalize x.toNat % 8388608 = f at h
  have hf := h.fraction_lt
  have he := h.exp_lt
  rcases Nat.eq_zero_or_pos e with rfl | h0
  · refine ⟨0, (fp32ToFp16_zero h).trans (Nat.add_zero _).symm,
      Format.Rounds.underflowed (by decide) (by decide) ?_⟩
    rw [h.size_subnormal, binary16_size_subnormal (by decide)]
    omega
  rcases Nat.lt_or_ge e 102 with hlow | hlow
  · refine ⟨0, (fp32ToFp16_underflow h h0 (by omega)).trans (Nat.add_zero _).symm,
      Format.Rounds.underflowed (by decide) (by decide) ?_⟩
    rw [h.size_normal h0, binary16_size_subnormal (by decide)]
    have hpow := Nat.pow_le_pow_right (n := 2) (by decide) (show e - 1 ≤ 100 by omega)
    have hmul := Nat.mul_le_mul (show 8388608 + f ≤ 16777216 by omega) hpow
    omega
  rcases Nat.lt_or_ge e 113 with hsub | hnormal
  · obtain ⟨k, h1, hk, rfl⟩ : ∃ k, 1 ≤ k ∧ k ≤ 11 ∧ e = 113 - k :=
      ⟨113 - e, by omega, by omega, by omega⟩
    exact ⟨_, fp32ToFp16_subnormal h1 hk h rfl rfl, rounds_subnormal h1 hk h rfl rfl⟩
  rcases Nat.lt_or_ge e 143 with hnormal' | hover
  · obtain ⟨e, rfl⟩ : ∃ e', e = e' + 112 := ⟨e - 112, by omega⟩
    exact ⟨_, fp32ToFp16_normal h (by omega) (by omega) rfl,
      rounds_normal h (by omega) (by omega) rfl⟩
  have hinf : binary16.size binary16.infinity ≤ binary32.size (binary32.low x.toNat) := by
    rw [h.size_normal h0, show binary16.infinity = 31 * 1024 + 0 from rfl,
      binary16_size (by decide) (by decide)]
    have hpow := Nat.pow_le_pow_right (n := 2) (by decide) (show 142 ≤ e - 1 by omega)
    have hmul := Nat.mul_le_mul (show 8388608 ≤ 8388608 + f by omega) hpow
    omega
  refine ⟨31744, ?_, Format.Rounds.overflowed hinf⟩
  rcases Nat.lt_or_ge e 255 with hfinite | h255
  · exact fp32ToFp16_overflow h hover hfinite
  · obtain rfl : e = 255 := by omega
    rw [h.fields.isNaN_eq] at hx
    obtain rfl : f = 0 := by simpa [binary32] using hx
    exact fp32ToFp16_infinity h

theorem fp32ToFp16_signed (hx : binary32.isNaN x.toNat = false) :
    ∃ n, Signed binary16 x (fp32ToFp16 x) n
      ∧ binary16.Rounds (binary32.size (binary32.low x.toNat)) n := by
  obtain ⟨n, hword, hr⟩ := fp32ToFp16_rounds hx
  have hlt := x.toNat_lt
  have hn : n ≤ 31744 := hr.le
  refine ⟨n, ⟨?_, ?_⟩, hr⟩
  · show (fp32ToFp16 x).toNat % 32768 = n
    omega
  · show decide (32768 ≤ (fp32ToFp16 x).toNat) = decide (2147483648 ≤ x.toNat)
    rw [decide_eq_decide]
    omega

theorem hasLimit_binary16 : HasLimit binary16 65520 := by
  have hlast : binary16.size (binary16.infinity - 1) = 2047 * 2 ^ 154 :=
    binary16_size (e := 30) (m := 1023) (by decide) (by decide)
  have hinf : binary16.size binary16.infinity = 1024 * 2 ^ 155 :=
    binary16_size (e := 31) (m := 0) (by decide) (by decide)
  rw [HasLimit, hlast, hinf]
  norm_num

theorem wide_binary16 :
    binary16.size binary16.infinity ≤ binary32.size binary32.infinity := by
  have hinf : binary16.size binary16.infinity = 1024 * 2 ^ 155 :=
    binary16_size (e := 31) (m := 0) (by decide) (by decide)
  have hwide := scale_fields (m := 23) (e := 255) (r := 0) (by decide)
  rw [hinf, Format.size]
  refine Nat.le_trans ?_ (Nat.le_of_eq (congrArg (· * 2 ^ 0) hwide).symm)
  rw [if_neg (by decide), Nat.pow_zero, Nat.mul_one]
  exact Nat.mul_le_mul (by decide) (Nat.pow_le_pow_right (by decide) (by decide))

/-- A quiet NaN of the sign of `x`. -/
structure QuietNaN (x : UInt32) (h : UInt16) : Prop where
  isNaN : binary16.isNaN h.toNat = true
  quiet : 512 ≤ binary16.fraction h.toNat
  sign : binary16.negative h.toNat = binary32.negative x.toNat

theorem quietNaN_fp32ToFp16 (hx : binary32.isNaN x.toNat = true) :
    QuietNaN x (fp32ToFp16 x) := by
  have hlt := x.toNat_lt
  have h : HasFields x (x.toNat / 2147483648) (x.toNat / 8388608 % 256)
      (x.toNat % 8388608) := ⟨by omega, by omega, by omega, by omega⟩
  have hnan := hx
  rw [h.fields.isNaN_eq, Bool.and_eq_true, decide_eq_true_iff, decide_eq_true_iff] at hnan
  obtain ⟨hexp, hf⟩ := hnan
  have hneg := h.fields.negative_eq
  rw [show x.toNat / 8388608 % 256 = 255 from hexp] at h
  obtain ⟨q, hq, hfields⟩ := fp32ToFp16_nan h hf
  exact ⟨isNaN_fp32ToFp16 hx, by rw [hfields.fraction_eq]; exact hq,
    by rw [hfields.negative_eq, hneg]⟩

/-- **`fp32ToFp16` is IEEE round to nearest even**: NaNs stay quiet NaNs of their
sign, numbers are rounded, in order, and narrowing undoes widening. -/
theorem fp32ToFp16_correct :
    (∀ x : UInt32, binary32.isNaN x.toNat = true → QuietNaN x (fp32ToFp16 x))
      ∧ (∀ x : UInt32, binary32.isNaN x.toNat = false →
        RoundsTo binary16 65520 x (fp32ToFp16 x))
      ∧ (∀ x y : UInt32, binary32.isNaN x.toNat = false → binary32.isNaN y.toNat = false →
        binary32.value x.toNat ≤ binary32.value y.toNat →
        binary16.value (fp32ToFp16 x).toNat ≤ binary16.value (fp32ToFp16 y).toNat)
      ∧ ∀ h : UInt16, binary16.isNaN h.toNat = false → fp32ToFp16 (fp16ToFp32 h) = h := by
  have hrounds : ∀ x : UInt32, binary32.isNaN x.toNat = false →
      RoundsTo binary16 65520 x (fp32ToFp16 x) := by
    intro x hx
    obtain ⟨n, hword, hr⟩ := fp32ToFp16_signed hx
    exact roundsTo_of_rounds (by decide) wide_binary16 hasLimit_binary16 hword hr
  refine ⟨fun x hx => quietNaN_fp32ToFp16 hx, hrounds, fun x y hx hy hle => ?_,
    fun h hh => fp32ToFp16_fp16ToFp32 hh⟩
  obtain ⟨n, hxword, hrx⟩ := fp32ToFp16_signed hx
  obtain ⟨n', hyword, hry⟩ := fp32ToFp16_signed hy
  rw [Format.value_le_iff (hrounds x hx).notNaN (hrounds y hy).notNaN (by decide)]
  rw [Format.value_le_iff hx hy (by decide)] at hle
  exact signed_le_of_rounds (by decide) hxword hyword hrx hry hle

end Fp16

/-! ## bf16 -/

section Bf16

variable {x : UInt32}

/-- The increment, on words. -/
theorem toNat_fp32ToBf16 : (fp32ToBf16 x).toNat = (x.toNat / 65536
    + if roundsUp 16 (x.toNat % 65536) (x.toNat / 65536) then 1 else 0) % 65536 := by
  have hlt := x.toNat_lt
  have hb : (x >>> 16).toNat = x.toNat / 65536 := toNat_shr (k := 16) rfl (by decide)
  have hrem : (x &&& 0xFFFF).toNat = x.toNat % 65536 := toNat_mask (k := 16) rfl
  have hup := up_iff (r := x &&& 0xFFFF) (m := 0x8000) (k := 15) rfl
    (congrArg (· % 2) hb)
  rw [hrem] at hup
  unfold fp32ToBf16
  dsimp only
  simp only [hup]
  rw [UInt32.toNat_toUInt16]
  split
  · rw [UInt32.toNat_add, UInt32.toNat_one, hb]
    omega
  · rw [hb]
    rfl

/-- A float lies between two bf16 patterns like its low half between 0 and
`2 ^ 16`, at every exponent. -/
theorem size_bfloat16 {n rem : Nat} (hrem : rem < 65536) :
    binary32.size (n * 65536 + rem) = bfloat16.size n + rem * 2 ^ (n / 128 - 1) := by
  have hfields : n * 65536 + rem
      = n / 128 * 2 ^ binary32.mbits + (n % 128 * 65536 + rem) := by
    show _ = n / 128 * 8388608 + _
    omega
  have hn : n = n / 128 * 2 ^ bfloat16.mbits + n % 128 := (Nat.div_add_mod' n 128).symm
  have hsize : bfloat16.size n = (if n / 128 = 0 then n % 128
      else (128 + n % 128) * 2 ^ (n / 128 - 1)) * 65536 := by
    conv_lhs => rw [hn]
    rw [Format.size, scale_fields (show n % 128 < 2 ^ bfloat16.mbits from
      Nat.mod_lt _ (by decide))]
    rfl
  rw [hfields, Format.size, scale_fields (show _ < 8388608 by omega), hsize]
  show (if n / 128 = 0 then _ else (8388608 + _) * _) * 1 = _
  split
  · rename_i he
    rw [he]
    omega
  · rw [Nat.mul_one, Nat.mul_right_comm, ← Nat.add_mul]
    congr 1
    omega

theorem bfloat16_step (n : Nat) :
    bfloat16.size (n + 1) = bfloat16.size n + 2 ^ 16 * 2 ^ (n / 128 - 1) := by
  rw [Format.size_succ, Nat.mul_comm (2 ^ 16)]
  rfl

theorem fp32ToBf16_signed (hx : binary32.isNaN x.toNat = false) :
    ∃ n, Signed bfloat16 x (fp32ToBf16 x) n
      ∧ bfloat16.Rounds (binary32.size (binary32.low x.toNat)) n := by
  have hlt := x.toNat_lt
  have hle : x.toNat % 2147483648 ≤ 2139095040 := Format.low_le_infinity hx
  have hword := toNat_fp32ToBf16 (x := x)
  obtain ⟨n, hn⟩ : ∃ n, n = x.toNat % 2147483648 / 65536 := ⟨_, rfl⟩
  obtain ⟨rem, hrem⟩ : ∃ rem, rem = x.toNat % 65536 := ⟨_, rfl⟩
  have hlow : binary32.low x.toNat = n * 65536 + rem := by
    show x.toNat % 2147483648 = _
    omega
  -- the sign bit does not change the parity of the quotient
  have hup : roundsUp 16 (x.toNat % 65536) (x.toNat / 65536) = roundsUp 16 rem n := by
    rw [roundsUp, roundsUp, ← hrem, show n % 2 = x.toNat / 65536 % 2 by omega]
  rw [hup] at hword
  have hr : bfloat16.Rounds (binary32.size (binary32.low x.toNat))
      (if roundsUp 16 rem n then n + 1 else n) := by
    rcases Nat.lt_or_ge n 32640 with hfin | hinf
    · exact Format.Rounds.ofQuotient (by decide) hfin (by decide)
        (by rw [hlow, size_bfloat16 (by omega)]) (show rem < 65536 by omega) (bfloat16_step n)
    · obtain rfl : n = 32640 := by omega
      obtain rfl : rem = 0 := by omega
      rw [roundsUp_zero, if_neg (by decide)]
      refine Format.Rounds.overflowed (Nat.le_of_eq ?_)
      rw [hlow, size_bfloat16 (by decide), Nat.zero_mul, Nat.add_zero]
      rfl
  have htop := hr.le
  refine ⟨_, ⟨?_, ?_⟩, hr⟩
  · show (fp32ToBf16 x).toNat % 32768 = _
    rw [hword]
    replace htop : (if roundsUp 16 rem n then n + 1 else n) ≤ 32640 := htop
    split at htop <;> simp_all <;> omega
  · show decide (32768 ≤ (fp32ToBf16 x).toNat) = decide (2147483648 ≤ x.toNat)
    replace htop : (if roundsUp 16 rem n then n + 1 else n) ≤ 32640 := htop
    rw [hword, decide_eq_decide]
    split at htop <;> simp_all <;> omega

theorem bfloat16_size_infinity : bfloat16.size bfloat16.infinity = 128 * 2 ^ 254 * 65536 := by
  have h := scale_fields (m := 7) (e := 255) (r := 0) (by decide)
  rw [if_neg (by decide)] at h
  exact congrArg (· * 65536) h

theorem hasLimit_bfloat16 : HasLimit bfloat16 (511 * 2 ^ 119) := by
  have hlast : bfloat16.size (bfloat16.infinity - 1) = 255 * 2 ^ 253 * 65536 := by
    have h := scale_fields (m := 7) (e := 254) (r := 127) (by decide)
    rw [if_neg (by decide)] at h
    exact congrArg (· * 65536) h
  rw [HasLimit, hlast, bfloat16_size_infinity]
  norm_num

theorem wide_bfloat16 :
    bfloat16.size bfloat16.infinity ≤ binary32.size binary32.infinity := by
  have h := @size_bfloat16 32640 0 (by decide)
  rw [Nat.zero_mul, Nat.add_zero] at h
  exact Nat.le_of_eq h.symm

/-- The conversion as IEEE rounding has it: a NaN stays one, a number
is rounded. -/
structure Bf16Correct (x : UInt32) : Prop where
  nan : binary32.isNaN x.toNat = true → bfloat16.isNaN (fp32ToBf16 x).toNat = true
  number : binary32.isNaN x.toNat = false →
    RoundsTo bfloat16 (511 * 2 ^ 119) x (fp32ToBf16 x)

/-- **Which NaNs survive.** -/
theorem isNaN_fp32ToBf16 (hx : binary32.isNaN x.toNat = true) :
    bfloat16.isNaN (fp32ToBf16 x).toNat = true
      ↔ 0x8000 < binary32.fraction x.toNat ∧ binary32.fraction x.toNat < 0x7F8000 := by
  have hlt := x.toNat_lt
  have hnan : 2139095040 < x.toNat % 2147483648 := Format.isNaN_iff.mp hx
  have hfraction : binary32.fraction x.toNat = x.toNat % 8388608 := by
    show x.toNat % 2147483648 % 8388608 = _
    omega
  rw [Format.isNaN_iff, hfraction]
  show 32640 < (fp32ToBf16 x).toNat % 32768 ↔ _
  rw [toNat_fp32ToBf16, roundsUp]
  simp only [decide_eq_true_eq]
  split <;> omega

/-- Narrowing undoes widening. -/
theorem fp32ToBf16_bf16ToFp32 (b : UInt16) : fp32ToBf16 (bf16ToFp32 b) = b := by
  have hb := b.toNat_lt
  have hword : (bf16ToFp32 b).toNat = b.toNat * 65536 := by
    rw [bf16ToFp32, toNat_shl 16 65536 rfl (by decide) rfl (by
      rw [UInt16.toNat_toUInt32]
      omega), UInt16.toNat_toUInt32]
  refine UInt16.toNat_inj.mp ?_
  rw [toNat_fp32ToBf16, hword, Nat.mul_mod_left, roundsUp_zero]
  simp only [Bool.false_eq_true, if_false]
  omega

/-- **`fp32ToBf16` rounds every number**; a NaN survives unless its fraction is
within half a unit of either end, where the increment makes it an infinity or
a zero. Narrowing undoes widening. -/
theorem fp32ToBf16_correct_iff (x : UInt32) (b : UInt16) :
    (Bf16Correct x ∧ fp32ToBf16 (bf16ToFp32 b) = b)
      ↔ (binary32.isNaN x.toNat = true →
        0x8000 < binary32.fraction x.toNat ∧ binary32.fraction x.toNat < 0x7F8000) := by
  constructor
  · rintro ⟨h, -⟩ hx
    exact (isNaN_fp32ToBf16 hx).mp (h.nan hx)
  · intro h
    refine ⟨⟨fun hx => (isNaN_fp32ToBf16 hx).mpr (h hx), fun hx => ?_⟩,
      fp32ToBf16_bf16ToFp32 b⟩
    obtain ⟨n, hword, hr⟩ := fp32ToBf16_signed hx
    exact roundsTo_of_rounds (by decide) wide_bfloat16 hasLimit_bfloat16 hword hr

/-- The least NaN narrows to infinity. -/
theorem bf16_loses_nan : ¬ ∀ x, Bf16Correct x := by
  intro h
  have hnan := (h 0x7F800001).nan (by decide)
  exact absurd hnan (by decide)

end Bf16

end EclipseNpu.Runtime

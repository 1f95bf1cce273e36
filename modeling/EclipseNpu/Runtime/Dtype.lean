import EclipseNpu.Lib.Rounding
import EclipseNpu.Runtime.CModel
import Mathlib.Data.Nat.Bitwise
import Mathlib.Tactic.IntervalCases

/-!
# Runtime — Dtype

The fp16 conversions (`runtime/include/dtype.h`). A `float` is its 32-bit
pattern, as the source's `memcpy` sees it. `fp16ToFp32` keeps value, sign and
NaN (`value_fp16ToFp32`), and `fp32ToFp16` gives back every number that was
widened (`fp32ToFp16_fp16ToFp32`).

`binary32Ops` is the executor's floating point on these patterns: the
conversions and the comparisons are fixed, the arithmetic stays a parameter.
-/

namespace EclipseNpu.Runtime

open EclipseNpu.Lib.Ieee754

/-! ## Formats -/

/-- Values of both formats are counted in units of `2 ^ -149`, the least
positive fp32 number; the least positive fp16 number is `2 ^ -24`. -/
def binary16 : Format := ⟨5, 10, 125⟩

def binary32 : Format := ⟨8, 23, 0⟩

/-! ## Conversions -/

/-- The `do while` loop that shifts a subnormal's leading one to bit 10. Ten
rounds suffice for a mantissa of ten bits that is not 0. -/
def normalize : Nat → UInt32 → Int → UInt32 × Int
  | 0, man, e => (man, e)
  | fuel + 1, man, e =>
      let man := man <<< 1
      if man &&& 0x400 = 0 then normalize fuel man (e + 1) else (man, e + 1)

def fp16ToFp32 (h : UInt16) : UInt32 :=
  let sign := (h.toUInt32 &&& 0x8000) <<< 16
  let exp := h.toUInt32 >>> 10 &&& 0x1F
  let man := h.toUInt32 &&& 0x3FF
  if exp = 0 then
    if man = 0 then sign
    else
      let (man, e) := normalize 10 man (-1)
      sign ||| UInt32.ofInt (112 - e) <<< 23 ||| (man &&& 0x3FF) <<< 13
  else if exp = 0x1F then sign ||| (0x7F800000 : UInt32) ||| man <<< 13
  else sign ||| (exp + 112) <<< 23 ||| man <<< 13

/-- Round to nearest, ties to even. `e` is the fp16 exponent field; at most 0
it stands for a subnormal. -/
def fp32ToFp16 (x : UInt32) : UInt16 :=
  let sign := x >>> 16 &&& 0x8000
  let exp := x >>> 23 &&& 0xFF
  let man := x &&& 0x7FFFFF
  if exp = 0xFF then
    if man = 0 then (sign ||| 0x7C00).toUInt16
    else (sign ||| (0x7C00 : UInt32) ||| man >>> 13 ||| 0x200).toUInt16
  else if exp = 0 then sign.toUInt16
  else
    let e : Int := exp.toNat - 112
    if e ≥ 31 then (sign ||| 0x7C00).toUInt16
    else if e ≤ 0 then
      if e < -10 then sign.toUInt16
      else
        let m := man ||| 0x800000
        let shift := 14 - UInt32.ofInt e
        let half := (1 : UInt32) <<< (shift - 1)
        let h := m >>> shift
        let rem := m &&& ((1 : UInt32) <<< shift - 1)
        let h := if rem > half ∨ (rem = half ∧ h &&& 1 ≠ 0) then h + 1 else h
        if h ≥ 0x400 then (sign ||| 0x0400).toUInt16 else (sign ||| h).toUInt16
    else
      let h := UInt32.ofInt e <<< 10
      let rem := man &&& 0x1FFF
      let m10 := man >>> 13
      let m10 := if rem > 0x1000 ∨ (rem = 0x1000 ∧ m10 &&& 1 ≠ 0) then m10 + 1 else m10
      if m10 = 0x400 then (sign ||| h + 0x400 ||| 0).toUInt16
      else (sign ||| h ||| m10).toUInt16

/-! ## Fields of a word -/

theorem toNat_mask {a m : UInt32} {k : Nat} (hm : m.toNat = 2 ^ k - 1) :
    (a &&& m).toNat = a.toNat % 2 ^ k := by
  rw [UInt32.toNat_and, hm, Nat.and_two_pow_sub_one_eq_mod]

theorem toNat_bit {a m : UInt32} {k : Nat} (hm : m.toNat = 2 ^ k) :
    (a &&& m).toNat = a.toNat / 2 ^ k % 2 * 2 ^ k := by
  rw [UInt32.toNat_and, hm, Nat.and_two_pow, Nat.toNat_testBit]

theorem toNat_shr {a b : UInt32} {k : Nat} (hb : b.toNat = k) (hk : k < 32) :
    (a >>> b).toNat = a.toNat / 2 ^ k := by
  rw [UInt32.toNat_shiftRight, hb, Nat.mod_eq_of_lt hk, Nat.shiftRight_eq_div_pow]

/-- A shift that multiplies by `p`. -/
theorem toNat_shl {a b : UInt32} (k p : Nat) (hb : b.toNat = k) (hk : k < 32)
    (hp : 2 ^ k = p) (h : a.toNat * p < 4294967296) : (a <<< b).toNat = a.toNat * p := by
  rw [UInt32.toNat_shiftLeft, hb, Nat.mod_eq_of_lt hk, Nat.shiftLeft_eq, hp,
    Nat.mod_eq_of_lt h]

theorem toNat_one_shl {b : UInt32} {k : Nat} (hb : b.toNat = k) (hk : k < 32) :
    ((1 : UInt32) <<< b).toNat = 2 ^ k := by
  have hlt : 2 ^ k < 2 ^ 32 := Nat.pow_lt_pow_right (by omega) hk
  rw [toNat_shl k (2 ^ k) hb hk rfl (by rw [UInt32.toNat_one]; omega), UInt32.toNat_one,
    Nat.one_mul]

theorem toNat_pred {a : UInt32} {n : Nat} (h : a.toNat = n + 1) : (a - 1).toNat = n := by
  have hle : 1 ≤ a := by
    rw [UInt32.le_iff_toNat_le, UInt32.toNat_one]
    omega
  rw [UInt32.toNat_sub_of_le _ _ hle, UInt32.toNat_one]
  omega

theorem toNat_ofInt {n : Nat} (h : n < 4294967296) : (UInt32.ofInt (n : Int)).toNat = n := by
  rw [UInt32.ofInt, UInt32.toNat_ofNat']
  omega

/-- Two fields that do not meet. -/
theorem toNat_or {a b : UInt32} {k n : Nat} (ha : a.toNat = n * 2 ^ k)
    (hb : b.toNat < 2 ^ k) : (a ||| b).toNat = n * 2 ^ k + b.toNat := by
  rw [UInt32.toNat_or, ha, Nat.mul_comm, ← Nat.two_pow_add_eq_or_of_lt hb]

/-! ## Widening -/

/-- What the loop of a subnormal ends with: the leading one is at bit 10. -/
theorem normalize_spec {fuel : Nat} {man : UInt32} (e : Int) (hman : man.toNat < 1024)
    (hfuel : 1024 ≤ man.toNat * 2 ^ fuel) :
    ∃ k, 1 ≤ k ∧ k ≤ fuel ∧ (normalize fuel man e).2 = e + k
      ∧ (normalize fuel man e).1.toNat = man.toNat * 2 ^ k
      ∧ 1024 ≤ man.toNat * 2 ^ k ∧ man.toNat * 2 ^ k < 2048 := by
  induction fuel generalizing man e with
  | zero => omega
  | succ fuel ih =>
      have hshl : (man <<< 1).toNat = man.toNat * 2 :=
        toNat_shl 1 2 rfl (by omega) rfl (by omega)
      have hbit : (man <<< 1 &&& 0x400).toNat = man.toNat * 2 / 1024 % 2 * 1024 := by
        rw [toNat_bit (k := 10) rfl, hshl]
        rfl
      have htest : man <<< 1 &&& 0x400 = 0 ↔ man.toNat * 2 < 1024 := by
        rw [← UInt32.toNat_inj, hbit, UInt32.toNat_zero]
        omega
      rw [normalize]
      by_cases hlow : man.toNat * 2 < 1024
      · rw [if_pos (htest.mpr hlow)]
        rw [Nat.pow_succ, Nat.mul_comm (2 ^ fuel), ← Nat.mul_assoc, ← hshl] at hfuel
        obtain ⟨k, h1, hk, he, hm, hlo, hhi⟩ := ih (e + 1) (by omega) hfuel
        have hpow : man.toNat * 2 ^ (k + 1) = (man <<< 1).toNat * 2 ^ k := by
          rw [hshl, Nat.pow_succ, Nat.mul_assoc, Nat.mul_comm 2]
        refine ⟨k + 1, by omega, by omega, ?_, ?_, ?_, ?_⟩
        · rw [he]
          push_cast
          omega
        · rw [hm, hpow]
        · rw [hpow]
          exact hlo
        · rw [hpow]
          exact hhi
      · rw [if_neg fun h => hlow (htest.mp h)]
        exact ⟨1, Nat.le_refl 1, by omega, rfl, hshl, by omega, by omega⟩

/-- The exponent and fraction fields `fp16ToFp32` makes from exponent `e` and
mantissa `m`. -/
inductive Widened (e m : Nat) : Nat → Nat → Prop
  | zero (he : e = 0) (hm : m = 0) : Widened e m 0 0
  | subnormal (k : Nat) (he : e = 0) (h1 : 1 ≤ k) (hk : k ≤ 10)
      (hlo : 1024 ≤ m * 2 ^ k) (hhi : m * 2 ^ k < 2048) :
      Widened e m (113 - k) ((m * 2 ^ k - 1024) * 8192)
  | special (he : e = 31) : Widened e m 255 (m * 8192)
  | normal (h0 : 0 < e) (h31 : e < 31) : Widened e m (e + 112) (m * 8192)

/-- A word with the three given fields. -/
structure HasFields (x : UInt32) (s e f : Nat) : Prop where
  word : x.toNat = s * 2147483648 + e * 8388608 + f
  sign_lt : s < 2
  exp_lt : e < 256
  fraction_lt : f < 8388608

namespace HasFields

variable {x : UInt32} {s e f : Nat}

theorem sign (h : HasFields x s e f) : (x >>> 16 &&& 0x8000).toNat = s * 32768 := by
  obtain ⟨hx, hs, he, hf⟩ := h
  rw [toNat_bit (k := 15) rfl, toNat_shr (k := 16) rfl (by omega), hx]
  omega

theorem exp (h : HasFields x s e f) : (x >>> 23 &&& 0xFF).toNat = e := by
  obtain ⟨hx, hs, he, hf⟩ := h
  rw [toNat_mask (k := 8) rfl, toNat_shr (k := 23) rfl (by omega), hx]
  omega

theorem man (h : HasFields x s e f) : (x &&& 0x7FFFFF).toNat = f := by
  obtain ⟨hx, hs, he, hf⟩ := h
  rw [toNat_mask (k := 23) rfl, hx]
  omega

end HasFields

/-- The three fields of a word, put together. -/
theorem hasFields_pack {sign exp man : UInt32} {s e m : Nat}
    (hsign : sign.toNat = s * 2147483648) (hs : s < 2)
    (hexp : exp.toNat = e * 8388608) (he : e < 256) (hman : man.toNat = m * 8192)
    (hm : m < 1024) : HasFields (sign ||| exp ||| man) s e (m * 8192) := by
  refine ⟨?_, hs, he, by omega⟩
  have hhigh : (sign ||| exp).toNat = (s * 256 + e) * 2 ^ 23 := by
    rw [toNat_or (k := 31) hsign (by omega), hexp]
    omega
  rw [toNat_or hhigh (by omega), hman]
  omega

/-- **What widening does to the fields.** -/
theorem fp16ToFp32_widened (h : UInt16) :
    ∃ e' f, HasFields (fp16ToFp32 h) (h.toNat / 32768) e' f
      ∧ Widened (h.toNat / 1024 % 32) (h.toNat % 1024) e' f := by
  have hlt := h.toNat_lt
  have hs : h.toNat / 32768 < 2 := by omega
  have hsign : ((h.toUInt32 &&& 0x8000) <<< 16).toNat = h.toNat / 32768 * 2147483648 := by
    have hbit : (h.toUInt32 &&& 0x8000).toNat = h.toNat / 32768 * 32768 := by
      rw [toNat_bit (k := 15) rfl, UInt16.toNat_toUInt32]
      omega
    rw [toNat_shl 16 65536 rfl (by omega) rfl (by omega), hbit]
    omega
  have hexp : (h.toUInt32 >>> 10 &&& 0x1F).toNat = h.toNat / 1024 % 32 := by
    rw [toNat_mask (k := 5) rfl, toNat_shr (k := 10) rfl (by omega), UInt16.toNat_toUInt32]
    rfl
  have hman : (h.toUInt32 &&& 0x3FF).toNat = h.toNat % 1024 := by
    rw [toNat_mask (k := 10) rfl, UInt16.toNat_toUInt32]
    rfl
  have hzero : ∀ a : UInt32, a = 0 ↔ a.toNat = 0 := fun a => by
    rw [← UInt32.toNat_inj, UInt32.toNat_zero]
  unfold fp16ToFp32
  generalize (h.toUInt32 &&& 0x8000) <<< 16 = sign at hsign ⊢
  generalize h.toUInt32 >>> 10 &&& 0x1F = exp at hexp ⊢
  generalize h.toUInt32 &&& 0x3FF = man at hman ⊢
  generalize h.toNat / 32768 = s at hsign hs ⊢
  generalize he : h.toNat / 1024 % 32 = e at hexp ⊢
  generalize hm : h.toNat % 1024 = m at hman ⊢
  dsimp only
  by_cases h0 : exp = 0
  · rw [if_pos h0]
    rw [hzero, hexp] at h0
    by_cases hm0 : man = 0
    · rw [if_pos hm0]
      rw [hzero, hman] at hm0
      refine ⟨0, 0, ⟨?_, hs, by decide, by decide⟩, .zero h0 hm0⟩
      rw [hsign, Nat.zero_mul, Nat.add_zero]
    · rw [if_neg hm0]
      rw [hzero, hman] at hm0
      obtain ⟨k, h1, hk, hke, hkm, hlo, hhi⟩ := normalize_spec (-1)
        (show man.toNat < 1024 by omega) (show 1024 ≤ man.toNat * 2 ^ 10 by omega)
      rw [hman] at hkm hlo hhi
      have hfield : (UInt32.ofInt (112 - (normalize 10 man (-1)).2)).toNat = 113 - k := by
        rw [hke, show (112 : Int) - (-1 + k) = ((113 - k : Nat) : Int) by omega]
        exact toNat_ofInt (by omega)
      have hrest : ((normalize 10 man (-1)).1 &&& 0x3FF).toNat = m * 2 ^ k - 1024 := by
        rw [toNat_mask (k := 10) rfl, hkm]
        omega
      exact ⟨_, _, hasFields_pack hsign hs
        (by rw [toNat_shl 23 8388608 rfl (by omega) rfl (by omega), hfield]) (by omega)
        (by rw [toNat_shl 13 8192 rfl (by omega) rfl (by omega), hrest]) (by omega),
        .subnormal k h0 h1 hk hlo hhi⟩
  · rw [if_neg h0]
    rw [hzero, hexp] at h0
    have hfraction : (man <<< 13).toNat = m * 8192 := by
      rw [toNat_shl 13 8192 rfl (by omega) rfl (by omega), hman]
    have hspecial : exp = 0x1F ↔ e = 31 := by
      rw [← UInt32.toNat_inj, hexp]
      rfl
    by_cases h31 : exp = 0x1F
    · rw [if_pos h31]
      rw [hspecial] at h31
      exact ⟨_, _, hasFields_pack hsign hs (e := 255) rfl (by omega) hfraction (by omega),
        .special h31⟩
    · rw [if_neg h31]
      rw [hspecial] at h31
      have hsum : (exp + 112).toNat = e + 112 := by
        rw [UInt32.toNat_add, hexp, show (112 : UInt32).toNat = 112 from rfl]
        omega
      exact ⟨_, _, hasFields_pack hsign hs
        (by rw [toNat_shl 23 8388608 rfl (by omega) rfl (by omega), hsum]) (by omega)
        hfraction (by omega), .normal (by omega) (by omega)⟩

/-! ## Narrowing back -/

theorem HasFields.fields {x : UInt32} {s e f : Nat} (h : HasFields x s e f) :
    binary32.Fields x.toNat s e f :=
  ⟨h.word, h.sign_lt, h.exp_lt, h.fraction_lt⟩

theorem binary16_fields (h : UInt16) :
    binary16.Fields h.toNat (h.toNat / 32768) (h.toNat / 1024 % 32) (h.toNat % 1024) := by
  have hlt := h.toNat_lt
  refine ⟨?_, by omega, Nat.mod_lt _ (by decide), Nat.mod_lt _ (by decide)⟩
  show _ = h.toNat / 32768 * 32768 + h.toNat / 1024 % 32 * 1024 + h.toNat % 1024
  omega

/-- A half word behind a sign. -/
theorem toNat_signed {sign a : UInt32} {s : Nat} (hsign : sign.toNat = s * 32768)
    (hs : s < 2) (ha : a.toNat < 32768) :
    (sign ||| a).toUInt16.toNat = s * 32768 + a.toNat := by
  rw [UInt32.toNat_toUInt16, toNat_or (k := 15) hsign (by omega)]
  omega

theorem fp32ToFp16_zero {x : UInt32} {s f : Nat} (h : HasFields x s 0 f) :
    (fp32ToFp16 x).toNat = s * 32768 := by
  have hsign := h.sign
  have hexp : x >>> 23 &&& 0xFF = 0 := UInt32.toNat_inj.mp h.exp
  have hs := h.sign_lt
  unfold fp32ToFp16
  rw [hexp]
  generalize x >>> 16 &&& 0x8000 = sign at hsign ⊢
  dsimp only
  rw [if_neg (by decide), if_pos rfl, UInt32.toNat_toUInt16, hsign]
  omega

theorem fp32ToFp16_infinity {x : UInt32} {s : Nat} (h : HasFields x s 255 0) :
    (fp32ToFp16 x).toNat = s * 32768 + 31744 := by
  have hexp : x >>> 23 &&& 0xFF = 0xFF := UInt32.toNat_inj.mp h.exp
  have hman : x &&& 0x7FFFFF = 0 := UInt32.toNat_inj.mp h.man
  unfold fp32ToFp16
  rw [hexp, hman]
  dsimp only
  rw [if_pos rfl, if_pos rfl, toNat_signed h.sign h.sign_lt (by decide)]
  rfl

/-- The test for rounding up, on a quotient with the low bit of `n`. -/
theorem up_iff {r m h : UInt32} {k n : Nat} (hhalf : m.toNat = 2 ^ k)
    (hh : h.toNat % 2 = n % 2) :
    (r > m ∨ (r = m ∧ h &&& 1 ≠ 0)) ↔ roundsUp (k + 1) r.toNat n = true := by
  have hodd : h &&& 1 ≠ 0 ↔ n % 2 = 1 := by
    rw [Ne, ← UInt32.toNat_inj, toNat_mask (k := 1) rfl, Nat.pow_one, hh, UInt32.toNat_zero]
    omega
  rw [roundsUp, Nat.add_sub_cancel, decide_eq_true_eq, hodd, gt_iff_lt,
    UInt32.lt_iff_toNat_lt, ← UInt32.toNat_inj, hhalf]

/-- **A number in the normal range**: 13 bits are dropped. -/
theorem fp32ToFp16_normal {x : UInt32} {s e f n : Nat} (h : HasFields x s (e + 112) f)
    (h0 : 0 < e) (h31 : e < 31) (hn : n = e * 1024 + f / 8192) :
    (fp32ToFp16 x).toNat
      = s * 32768 + if roundsUp 13 (f % 8192) n then n + 1 else n := by
  have hsign := h.sign
  have hexp := h.exp
  have hman := h.man
  have hs := h.sign_lt
  have hf := h.fraction_lt
  unfold fp32ToFp16
  generalize x >>> 16 &&& 0x8000 = sign at hsign ⊢
  generalize x >>> 23 &&& 0xFF = exp at hexp ⊢
  generalize x &&& 0x7FFFFF = man at hman ⊢
  have hfinite : exp ≠ 0xFF := by
    rintro rfl
    rw [show (0xFF : UInt32).toNat = 255 from rfl] at hexp
    omega
  have hnonzero : exp ≠ 0 := by
    rintro rfl
    rw [UInt32.toNat_zero] at hexp
    omega
  have hrem : (man &&& 0x1FFF).toNat = f % 8192 := by
    rw [toNat_mask (k := 13) rfl, hman]
    rfl
  have hm10 : (man >>> 13).toNat = f / 8192 := by
    rw [toNat_shr (k := 13) rfl (by omega), hman]
    rfl
  have he : ((exp.toNat : Int) - 112) = (e : Int) := by omega
  have hvalue : (UInt32.ofInt (e : Int)).toNat = e := toNat_ofInt (by omega)
  have hfield : (UInt32.ofInt (e : Int) <<< 10).toNat = e * 1024 := by
    rw [toNat_shl 10 1024 rfl (by decide) rfl (by rw [hvalue]; omega), hvalue]
  have hup := up_iff (r := man &&& 0x1FFF) (m := 0x1000) (h := man >>> 13) (k := 12)
    (n := n) rfl (by omega)
  rw [hrem] at hup
  dsimp only
  rw [if_neg hfinite, if_neg hnonzero, he, if_neg (by omega), if_neg (by omega)]
  simp only [hup]
  generalize UInt32.ofInt (e : Int) <<< 10 = h at hfield ⊢
  generalize man >>> 13 = m10 at hm10 ⊢
  have hhigh : (sign ||| h).toNat = (s * 32 + e) * 2 ^ 10 := by
    rw [toNat_or (k := 15) hsign (by omega), hfield]
    omega
  cases roundsUp 13 (f % 8192) n with
  | false =>
      have hcarry : m10 ≠ 0x400 := by
        rintro rfl
        rw [show (0x400 : UInt32).toNat = 1024 from rfl] at hm10
        omega
      simp only [Bool.false_eq_true, if_false]
      rw [if_neg hcarry, UInt32.toNat_toUInt16, toNat_or hhigh (by omega), hm10]
      omega
  | true =>
      have hnext : (m10 + 1).toNat = f / 8192 + 1 := by
        rw [UInt32.toNat_add, UInt32.toNat_one, hm10]
        omega
      simp only [if_true]
      by_cases hcarry : m10 + 1 = 0x400
      · -- the fraction is full: the next exponent
        have hfull : f / 8192 + 1 = 1024 := by
          rw [← hnext, hcarry]
          rfl
        have hsum : (h + 0x400).toNat = (e + 1) * 1024 := by
          rw [UInt32.toNat_add, hfield, show (0x400 : UInt32).toNat = 1024 from rfl]
          omega
        rw [if_pos hcarry, UInt32.or_zero, toNat_signed hsign hs (by omega), hsum]
        omega
      · have hroom : f / 8192 + 1 ≠ 1024 := by
          rw [← hnext]
          exact fun hc => hcarry (UInt32.toNat_inj.mp hc)
        rw [if_neg hcarry, UInt32.toNat_toUInt16, toNat_or hhigh (by omega), hnext]
        omega

theorem toNat_shift {k : Nat} (h1 : 1 ≤ k) (hk : k ≤ 11) :
    (14 - UInt32.ofInt (1 - (k : Int))).toNat = 13 + k := by
  interval_cases k <;> rfl

/-- **A number below the normal range**: the hidden bit comes out, and
`13 + k` bits are dropped. -/
theorem fp32ToFp16_subnormal {x : UInt32} {s k f n rem : Nat} (h1 : 1 ≤ k) (hk : k ≤ 11)
    (h : HasFields x s (113 - k) f) (hn : n = (8388608 + f) / 2 ^ (13 + k))
    (hr : rem = (8388608 + f) % 2 ^ (13 + k)) :
    (fp32ToFp16 x).toNat = s * 32768 + if roundsUp (13 + k) rem n then n + 1 else n := by
  have hsign := h.sign
  have hexp := h.exp
  have hman := h.man
  have hs := h.sign_lt
  have hf := h.fraction_lt
  unfold fp32ToFp16
  generalize x >>> 16 &&& 0x8000 = sign at hsign ⊢
  generalize x >>> 23 &&& 0xFF = exp at hexp ⊢
  generalize x &&& 0x7FFFFF = man at hman ⊢
  have hfinite : exp ≠ 0xFF := by
    rintro rfl
    rw [show (0xFF : UInt32).toNat = 255 from rfl] at hexp
    omega
  have hnonzero : exp ≠ 0 := by
    rintro rfl
    rw [UInt32.toNat_zero] at hexp
    omega
  have he : ((exp.toNat : Int) - 112) = 1 - (k : Int) := by omega
  have hhidden : (man ||| 0x800000).toNat = 8388608 + f := by
    rw [UInt32.or_comm, toNat_or (k := 23) (n := 1) rfl (by omega), hman, Nat.one_mul]
    rfl
  have hshift := toNat_shift h1 hk
  -- at least one bit more is dropped than the fraction has too many
  have hsmall : n < 1024 := by
    rw [hn]
    refine Nat.div_lt_of_lt_mul ?_
    have := Nat.pow_le_pow_right (n := 2) (by decide) (show 14 ≤ 13 + k by omega)
    omega
  dsimp only
  rw [if_neg hfinite, if_neg hnonzero, he, if_neg (by omega), if_pos (by omega),
    if_neg (by omega)]
  generalize 14 - UInt32.ofInt (1 - (k : Int)) = shift at hshift ⊢
  have hquot : ((man ||| 0x800000) >>> shift).toNat = n := by
    rw [toNat_shr hshift (by omega), hhidden, hn]
  have hrem : ((man ||| 0x800000) &&& ((1 : UInt32) <<< shift - 1)).toNat = rem := by
    have hmask : ((1 : UInt32) <<< shift - 1).toNat = 2 ^ (13 + k) - 1 := by
      have hpos := Nat.two_pow_pos (13 + k)
      exact toNat_pred (by rw [toNat_one_shl hshift (by omega)]; omega)
    rw [toNat_mask hmask, hhidden, hr]
  have hhalf : ((1 : UInt32) <<< (shift - 1)).toNat = 2 ^ (12 + k) := by
    have hpred : (shift - 1).toNat = 12 + k := toNat_pred (by omega)
    rw [toNat_one_shl hpred (by omega)]
  have hup := up_iff (r := (man ||| 0x800000) &&& ((1 : UInt32) <<< shift - 1)) hhalf
    (congrArg (· % 2) hquot)
  rw [hrem, show 12 + k + 1 = 13 + k by omega] at hup
  simp only [hup]
  generalize (man ||| 0x800000) >>> shift = h at hquot ⊢
  cases roundsUp (13 + k) rem n with
  | false =>
      simp only [Bool.false_eq_true, if_false]
      have hkeep : ¬ h ≥ 0x400 := by
        rw [ge_iff_le, UInt32.le_iff_toNat_le, hquot]
        exact Nat.not_le.mpr hsmall
      rw [if_neg hkeep, toNat_signed hsign hs (by omega), hquot]
  | true =>
      have hnext : (h + 1).toNat = n + 1 := by
        rw [UInt32.toNat_add, UInt32.toNat_one, hquot]
        omega
      simp only [if_true]
      by_cases hcarry : h + 1 ≥ 0x400
      · -- the least normal number
        have hfull : n + 1 = 1024 := by
          rw [ge_iff_le, UInt32.le_iff_toNat_le, hnext] at hcarry
          exact Nat.le_antisymm hsmall hcarry
        rw [if_pos hcarry, toNat_signed hsign hs (by decide), hfull]
        rfl
      · have hroom : n + 1 < 1024 := by
          rw [ge_iff_le, UInt32.le_iff_toNat_le, hnext] at hcarry
          exact Nat.not_le.mp hcarry
        rw [if_neg hcarry, toNat_signed hsign hs (by omega), hnext]

/-- A NaN stays one: the quiet bit is set. -/
theorem fp32ToFp16_nan {x : UInt32} {s f : Nat} (h : HasFields x s 255 f) (hf : f ≠ 0) :
    ∃ q, 512 ≤ q ∧ binary16.Fields (fp32ToFp16 x).toNat s 31 q := by
  have hsign := h.sign
  have hman := h.man
  have hs := h.sign_lt
  have hlt := h.fraction_lt
  have hexp : x >>> 23 &&& 0xFF = 0xFF := UInt32.toNat_inj.mp h.exp
  have hne : ¬ x &&& 0x7FFFFF = 0 := by
    intro hc
    rw [hc, UInt32.toNat_zero] at hman
    exact hf hman.symm
  have hquot : ((x &&& 0x7FFFFF) >>> 13).toNat < 1024 := by
    rw [toNat_shr (k := 13) rfl (by omega), hman]
    omega
  have hfrac : 512 ≤ ((x &&& 0x7FFFFF) >>> 13 ||| 0x200).toNat
      ∧ ((x &&& 0x7FFFFF) >>> 13 ||| 0x200).toNat < 1024 := by
    rw [UInt32.toNat_or]
    exact ⟨Nat.right_le_or, Nat.or_lt_two_pow (n := 10) hquot (by decide)⟩
  unfold fp32ToFp16
  rw [hexp]
  dsimp only
  rw [if_pos rfl, if_neg hne, UInt32.or_assoc]
  generalize x >>> 16 &&& 0x8000 = sign at hsign ⊢
  generalize (x &&& 0x7FFFFF) >>> 13 ||| 0x200 = quiet at hfrac ⊢
  have hhigh : (sign ||| 0x7C00).toNat = (s * 32 + 31) * 2 ^ 10 := by
    rw [toNat_or (k := 15) hsign (by decide), show (0x7C00 : UInt32).toNat = 31744 from rfl]
    omega
  have hword : (sign ||| 0x7C00 ||| quiet).toUInt16.toNat
      = s * 32768 + 31 * 1024 + quiet.toNat := by
    rw [UInt32.toNat_toUInt16, toNat_or hhigh hfrac.2]
    omega
  exact ⟨quiet.toNat, hfrac.1, hword, hs, by decide, hfrac.2⟩

theorem isNaN_fp32ToFp16 {x : UInt32} (h : binary32.isNaN x.toNat = true) :
    binary16.isNaN (fp32ToFp16 x).toNat = true := by
  have hlt := x.toNat_lt
  have hx : HasFields x (x.toNat / 2147483648) (x.toNat / 8388608 % 256)
      (x.toNat % 8388608) := ⟨by omega, by omega, by omega, by omega⟩
  rw [hx.fields.isNaN_eq, Bool.and_eq_true, decide_eq_true_iff, decide_eq_true_iff] at h
  obtain ⟨hexp, hf⟩ := h
  rw [show x.toNat / 8388608 % 256 = 255 from hexp] at hx
  obtain ⟨q, hq, hfields⟩ := fp32ToFp16_nan hx hf
  rw [hfields.isNaN_eq, Bool.and_eq_true, decide_eq_true_iff, decide_eq_true_iff]
  exact ⟨rfl, by omega⟩

/-! ## Both ways -/

section Roundtrip

variable {h : UInt16}

theorem isNaN_binary16 : binary16.isNaN h.toNat
    = (decide (h.toNat / 1024 % 32 = 31) && decide (h.toNat % 1024 ≠ 0)) :=
  (binary16_fields h).isNaN_eq

/-- **Narrowing undoes widening.** -/
theorem fp32ToFp16_fp16ToFp32 (hnan : binary16.isNaN h.toNat = false) :
    fp32ToFp16 (fp16ToFp32 h) = h := by
  have hlt := h.toNat_lt
  obtain ⟨e', f, hx, hwide⟩ := fp16ToFp32_widened h
  have hword : h.toNat = h.toNat / 32768 * 32768 + h.toNat / 1024 % 32 * 1024
      + h.toNat % 1024 := by omega
  have hm : h.toNat % 1024 < 1024 := by omega
  rw [isNaN_binary16] at hnan
  generalize h.toNat / 1024 % 32 = e at hwide hword hnan
  generalize h.toNat % 1024 = m at hwide hword hm hnan
  cases hwide with
  | zero he hm0 =>
      refine UInt16.toNat_inj.mp ?_
      rw [fp32ToFp16_zero hx]
      omega
  | subnormal k he h1 hk hlo hhi =>
      refine UInt16.toNat_inj.mp ?_
      have hfull : 8388608 + (m * 2 ^ k - 1024) * 8192 = m * 2 ^ (13 + k) := by
        rw [Nat.pow_add, Nat.mul_comm (2 ^ 13), ← Nat.mul_assoc]
        omega
      rw [@fp32ToFp16_subnormal _ _ _ _ m 0 h1 (by omega) hx
        (by rw [hfull, Nat.mul_div_cancel _ (Nat.two_pow_pos _)])
        (by rw [hfull, Nat.mul_mod_left]), roundsUp_zero]
      simp only [Bool.false_eq_true, if_false]
      omega
  | special he =>
      have hm0 : m = 0 := by simpa [he] using hnan
      rw [hm0, Nat.zero_mul] at hx
      refine UInt16.toNat_inj.mp ?_
      rw [fp32ToFp16_infinity hx]
      omega
  | normal h0 h31 =>
      refine UInt16.toNat_inj.mp ?_
      rw [fp32ToFp16_normal hx h0 h31 rfl, Nat.mul_mod_left, roundsUp_zero,
        Nat.mul_div_cancel _ (by decide)]
      simp only [Bool.false_eq_true, if_false]
      omega

theorem isNaN_fp16ToFp32 :
    binary32.isNaN (fp16ToFp32 h).toNat = binary16.isNaN h.toNat := by
  obtain ⟨e', f, hx, hwide⟩ := fp16ToFp32_widened h
  rw [isNaN_binary16, hx.fields.isNaN_eq]
  generalize h.toNat / 1024 % 32 = e at hwide ⊢
  generalize h.toNat % 1024 = m at hwide ⊢
  show (decide (e' = 255) && decide (f ≠ 0)) = _
  cases hwide with
  | zero he hm => simp [he]
  | subnormal k he h1 hk hlo hhi =>
      rw [he, decide_eq_false (show ¬ 113 - k = 255 by omega), Bool.false_and]
      rfl
  | special he =>
      rw [he]
      by_cases hm : m = 0
      · rw [hm]
        rfl
      · rw [decide_eq_true (show m * 8192 ≠ 0 by omega), decide_eq_true hm]
        rfl
  | normal h0 h31 =>
      rw [decide_eq_false (show ¬ e + 112 = 255 by omega),
        decide_eq_false (show ¬ e = 31 by omega)]
      rfl

/-- **Widening is exact.** -/
theorem value_fp16ToFp32 (hnan : binary16.isNaN h.toNat = false) :
    binary32.value (fp16ToFp32 h).toNat = binary16.value h.toNat := by
  obtain ⟨e', f, hx, hwide⟩ := fp16ToFp32_widened h
  rw [isNaN_binary16] at hnan
  rw [hx.fields.value_eq, (binary16_fields h).value_eq]
  generalize h.toNat / 1024 % 32 = e at hwide hnan ⊢
  generalize h.toNat % 1024 = m at hwide hnan ⊢
  show (if e' = 255 ∧ f = 0 then _ else finite _
      ((if e' = 0 then f else (2 ^ 23 + f) * 2 ^ (e' - 1)) * 2 ^ 0))
    = if e = 31 ∧ m = 0 then _ else finite _
      ((if e = 0 then m else (2 ^ 10 + m) * 2 ^ (e - 1)) * 2 ^ 125)
  cases hwide with
  | zero he hm => simp [he, hm]
  | subnormal k he h1 hk hlo hhi =>
      have hsize : (2 ^ 23 + (m * 2 ^ k - 1024) * 8192) * 2 ^ (113 - k - 1)
          = m * 2 ^ 125 :=
        calc (2 ^ 23 + (m * 2 ^ k - 1024) * 8192) * 2 ^ (113 - k - 1)
            = m * 2 ^ k * 2 ^ 13 * 2 ^ (113 - k - 1) := by
              rw [show 2 ^ 23 + (m * 2 ^ k - 1024) * 8192 = m * 2 ^ k * 2 ^ 13 by omega]
          _ = m * (2 ^ k * 2 ^ 13 * 2 ^ (113 - k - 1)) := by simp only [Nat.mul_assoc]
          _ = m * 2 ^ 125 := by
              rw [← Nat.pow_add, ← Nat.pow_add,
                show k + 13 + (113 - k - 1) = 125 by omega]
      rw [if_neg (by omega), if_neg (by omega), if_neg (by omega), if_pos he, hsize,
        Nat.pow_zero, Nat.mul_one]
  | special he =>
      have hm : m = 0 := by simpa [he] using hnan
      simp [he, hm]
  | normal h0 h31 =>
      have hsize : (2 ^ 23 + m * 8192) * 2 ^ (e + 112 - 1)
          = (2 ^ 10 + m) * 2 ^ (e - 1) * 2 ^ 125 :=
        calc (2 ^ 23 + m * 8192) * 2 ^ (e + 112 - 1)
            = (2 ^ 10 + m) * 2 ^ 13 * 2 ^ (e + 112 - 1) := by
              congr 1
              omega
          _ = (2 ^ 10 + m) * 2 ^ (e - 1) * 2 ^ 125 := by
              rw [Nat.mul_assoc, ← Nat.pow_add, Nat.mul_assoc, ← Nat.pow_add,
                show 13 + (e + 112 - 1) = e - 1 + 125 by omega]
      rw [if_neg (by omega), if_neg (by omega), if_neg (by omega), if_neg (by omega),
        hsize, Nat.pow_zero, Nat.mul_one]

end Roundtrip

/-! ## The executor's floating point -/

/-- The `float` arithmetic, on bit patterns: whatever the machine computes. -/
class FloatArith where
  add : UInt32 → UInt32 → UInt32
  sub : UInt32 → UInt32 → UInt32
  mul : UInt32 → UInt32 → UInt32
  div : UInt32 → UInt32 → UInt32
  exp : UInt32 → UInt32
  rsqrt : UInt32 → UInt32
  silu : UInt32 → UInt32

/-- `std::isnan`. -/
def isnan (a : UInt32) : Bool := binary32.isNaN a.toNat

/-- The value of a `float` that is no NaN. -/
def floatValue (a : UInt32) : Extended := binary32.value a.toNat

/-- Comparisons are by value, and false on a NaN. -/
instance binary32Ops [FloatArith] : Fp32 UInt32 where
  zero := 0
  add := FloatArith.add
  sub := FloatArith.sub
  mul := FloatArith.mul
  div := FloatArith.div
  exp := FloatArith.exp
  rsqrt := FloatArith.rsqrt
  silu := FloatArith.silu
  gt a b := !isnan a && !isnan b && decide (floatValue b < floatValue a)
  eq a b := !isnan a && !isnan b && decide (floatValue a = floatValue b)
  isnan := isnan
  signbit a := binary32.negative a.toNat
  quietNaN := 0x7FC00000
  fp16ToFp32 := fp16ToFp32
  fp32ToFp16 := fp32ToFp16

end EclipseNpu.Runtime

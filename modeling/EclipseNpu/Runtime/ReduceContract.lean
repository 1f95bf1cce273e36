import EclipseNpu.Lib.Reduction
import EclipseNpu.Runtime.Dtype
import EclipseNpu.Runtime.Kernels
import EclipseNpu.Runtime.RangeChecks
import EclipseNpu.Runtime.Stream

/-!
# Runtime — ReduceContract

MAX and ARGMAX fix their result, not the order they compute it in
(`docs/spec/accuracy.md`). On patterns, `reduceMax` is the maximum of `key`
and the index of `reduceArgmax` is that of `leftmost` by `rank`; both are
associative, so any reduction tree gives what the executor's left fold gives
(`reduce_contract`).
-/

namespace EclipseNpu.Runtime

open EclipseNpu.Lib EclipseNpu.Lib.Ieee754

/-! ## The combiners -/

/-- By value, then by sign, NaN above all. -/
def floatKey (a : UInt32) : WithTop (Extended ×ₗ Bool) := binary32.key a.toNat

/-- By value, NaN above all. -/
def floatRank (a : UInt32) : WithTop Extended := binary32.rank a.toNat

section Key

variable {a b : UInt32}

theorem floatKey_inj (hnan : isnan a = false) (h : floatKey a = floatKey b) : a = b := by
  have ha := a.toNat_lt
  have hb := b.toNat_lt
  have hbit : binary32.signBit = 2147483648 := rfl
  exact UInt32.toNat_inj.mp (Format.key_inj (by omega) (by omega) hnan h)

theorem floatKey_eq_top : floatKey a = ⊤ ↔ isnan a = true := Format.key_eq_top

theorem floatValue_zero : floatValue 0 = 0 := by
  have hfields : binary32.Fields (0 : UInt32).toNat 0 0 0 :=
    ⟨by simp, by decide, by decide, by decide⟩
  rw [floatValue, hfields.value_eq, if_neg (by decide), if_pos rfl, Nat.zero_mul]
  exact finite_eq_zero.mpr rfl

theorem floatKey_le_of_value_lt (ha : isnan a = false) (hb : isnan b = false)
    (h : floatValue a < floatValue b) : floatKey a ≤ floatKey b := by
  rw [floatKey, floatKey, Format.key_of_not_isNaN ha, Format.key_of_not_isNaN hb,
    WithTop.coe_le_coe, Prod.Lex.toLex_le_toLex]
  exact .inl h

theorem floatKey_le_of_value_eq (ha : isnan a = false) (hb : isnan b = false)
    (h : floatValue a = floatValue b)
    (hsign : binary32.negative a.toNat = true ∨ binary32.negative b.toNat = false) :
    floatKey a ≤ floatKey b := by
  rw [floatKey, floatKey, Format.key_of_not_isNaN ha, Format.key_of_not_isNaN hb,
    WithTop.coe_le_coe, Prod.Lex.toLex_le_toLex]
  refine .inr ⟨h, ?_⟩
  rcases hsign with hs | hs
  · simp [hs]
  · simp [hs]

end Key

section Combine

variable [FloatArith]

theorem gt_eq {a b : UInt32} (ha : isnan a = false) (hb : isnan b = false) :
    Fp32.gt a b = decide (floatValue b < floatValue a) := by
  show (!isnan a && !isnan b && _) = _
  rw [ha, hb]
  rfl

theorem eq_eq {a b : UInt32} (ha : isnan a = false) (hb : isnan b = false) :
    Fp32.eq a b = decide (floatValue a = floatValue b) := by
  show (!isnan a && !isnan b && _) = _
  rw [ha, hb]
  rfl

/-- What `reduceMax` returns: the quiet NaN, or the operand with the larger
key. -/
theorem reduceMax_cases (a b : UInt32) :
    ((isnan a = true ∨ isnan b = true) ∧ reduceMax a b = 0x7FC00000)
      ∨ (isnan a = false ∧ isnan b = false
        ∧ (reduceMax a b = a ∧ floatKey b ≤ floatKey a
          ∨ reduceMax a b = b ∧ floatKey a ≤ floatKey b)) := by
  by_cases hnan : (isnan a || isnan b) = true
  · refine .inl ⟨by simpa using hnan, ?_⟩
    exact if_pos hnan
  obtain ⟨ha, hb⟩ : isnan a = false ∧ isnan b = false := by simpa using hnan
  refine .inr ⟨ha, hb, ?_⟩
  have hzero : isnan 0 = false := by decide
  have hmax : reduceMax a b
      = if floatValue b < floatValue a then a
        else if floatValue a < floatValue b then b
        else if floatValue a = 0 ∧ floatValue b = 0 then
          (if binary32.negative a.toNat = true then b else a)
        else a := by
    unfold reduceMax
    rw [show (Fp32.isnan a || Fp32.isnan b) = false from Bool.eq_false_iff.mpr hnan,
      gt_eq ha hb, gt_eq hb ha, show (Fp32.zero : UInt32) = 0 from rfl, eq_eq ha hzero,
      eq_eq hb hzero, floatValue_zero]
    simp only [Bool.false_eq_true, if_false, decide_eq_true_eq, Bool.and_eq_true]
    rfl
  rw [hmax]
  rcases lt_trichotomy (floatValue b) (floatValue a) with hlt | heq | hgt
  · rw [if_pos hlt]
    exact .inl ⟨rfl, floatKey_le_of_value_lt hb ha hlt⟩
  · rw [if_neg heq.not_lt, if_neg heq.symm.not_lt]
    -- equal values: two zeros, or the same pattern
    by_cases hz : floatValue a = 0 ∧ floatValue b = 0
    · rw [if_pos hz]
      by_cases hs : binary32.negative a.toNat = true
      · rw [if_pos hs]
        exact .inr ⟨rfl, floatKey_le_of_value_eq ha hb heq.symm (.inl hs)⟩
      · rw [if_neg hs]
        exact .inl ⟨rfl, floatKey_le_of_value_eq hb ha heq
          (.inr (Bool.eq_false_iff.mpr hs))⟩
    · rw [if_neg hz]
      have hsign : binary32.negative b.toNat = binary32.negative a.toNat :=
        Format.negative_eq_of_value_eq heq fun h => hz ⟨heq.symm.trans h, h⟩
      refine .inl ⟨rfl, floatKey_le_of_value_eq hb ha heq ?_⟩
      rw [hsign]
      exact (Bool.eq_false_or_eq_true _).imp_right id
  · rw [if_neg hgt.not_gt, if_pos hgt]
    exact .inr ⟨rfl, floatKey_le_of_value_lt ha hb hgt⟩

/-- **The maximum of the keys.** -/
theorem floatKey_reduceMax (a b : UInt32) :
    floatKey (reduceMax a b) = max (floatKey a) (floatKey b) := by
  rcases reduceMax_cases a b with ⟨hnan, hr⟩ | ⟨-, -, ⟨hr, hle⟩ | ⟨hr, hle⟩⟩
  · have hquiet : floatKey (0x7FC00000 : UInt32) = ⊤ :=
      floatKey_eq_top.mpr (by decide +kernel)
    rw [hr, hquiet]
    rcases hnan with h | h
    · rw [floatKey_eq_top.mpr h, max_eq_left le_top]
    · rw [floatKey_eq_top.mpr h, max_eq_right le_top]
  · rw [hr, max_eq_left hle]
  · rw [hr, max_eq_right hle]

/-- A NaN that was combined is the quiet one. -/
theorem reduceMax_quiet {a b : UInt32} (h : isnan (reduceMax a b) = true) :
    reduceMax a b = 0x7FC00000 := by
  rcases reduceMax_cases a b with ⟨-, hr⟩ | ⟨ha, hb, ⟨hr, -⟩ | ⟨hr, -⟩⟩
  · exact hr
  · rw [hr, ha] at h
    cases h
  · rw [hr, hb] at h
    cases h

/-- Combined values are determined by their keys. -/
theorem reduceMax_ext {a b c d : UInt32}
    (h : floatKey (reduceMax a b) = floatKey (reduceMax c d)) :
    reduceMax a b = reduceMax c d := by
  cases hnan : isnan (reduceMax a b) with
  | false => exact floatKey_inj hnan h
  | true =>
      have hnan' : isnan (reduceMax c d) = true := by
        rw [← floatKey_eq_top, ← h, floatKey_eq_top, hnan]
      rw [reduceMax_quiet hnan, reduceMax_quiet hnan']

theorem reduceMax_comm (a b : UInt32) : reduceMax a b = reduceMax b a :=
  reduceMax_ext (by rw [floatKey_reduceMax, floatKey_reduceMax, max_comm])

theorem reduceMax_assoc (a b c : UInt32) :
    reduceMax (reduceMax a b) c = reduceMax a (reduceMax b c) :=
  reduceMax_ext (by simp only [floatKey_reduceMax, max_assoc])

/-- What the index of a pair is chosen by. -/
def ValueIndex.ranked (x : ValueIndex UInt32) : WithTop Extended × UInt32 :=
  (floatRank x.value, x.index)

theorem floatRank_reduceMax (a b : UInt32) :
    floatRank (reduceMax a b) = max (floatRank a) (floatRank b) :=
  Format.rank_max (floatKey_reduceMax a b)

theorem reduceArgmax_value (a b : ValueIndex UInt32) :
    (reduceArgmax a b).value = reduceMax a.value b.value := by
  unfold reduceArgmax
  dsimp only
  split
  · rfl
  · rfl

/-- The index of a combined pair. -/
theorem reduceArgmax_index (a b : ValueIndex UInt32) :
    (reduceArgmax a b).index
      = if floatRank b.value ≤ floatRank a.value then a.index else b.index := by
  have hrank := floatRank_reduceMax a.value b.value
  have htop : ∀ x, floatRank x = ⊤ ↔ isnan x = true := fun x => Format.rank_eq_top
  unfold reduceArgmax
  dsimp only
  cases hnan : isnan (reduceMax a.value b.value) with
  | true =>
      rw [show Fp32.isnan (reduceMax a.value b.value) = true from hnan, if_pos rfl]
      rw [(htop _).mpr hnan] at hrank
      show (if isnan a.value = true then _ else _) = _
      by_cases ha : isnan a.value = true
      · rw [if_pos ha, if_pos (by rw [(htop _).mpr ha]; exact le_top)]
      · -- then the other one is the NaN
        have hlt : floatRank a.value < ⊤ := lt_top_iff_ne_top.mpr fun h => ha ((htop _).mp h)
        have hb : floatRank b.value = ⊤ := by
          rcases max_choice (floatRank a.value) (floatRank b.value) with h | h
          · exact absurd (h.symm.trans hrank.symm) hlt.ne
          · exact h.symm.trans hrank.symm
        rw [if_neg ha, if_neg (by rw [hb]; exact hlt.not_ge)]
  | false =>
      have ha : isnan a.value = false := by
        rw [Bool.eq_false_iff, Ne, ← htop]
        intro h
        rw [h, max_eq_left le_top, htop, hnan] at hrank
        cases hrank
      rw [show Fp32.isnan (reduceMax a.value b.value) = false from hnan, eq_eq ha hnan,
        if_neg (by decide)]
      have heq : floatValue a.value = floatValue (reduceMax a.value b.value)
          ↔ floatRank b.value ≤ floatRank a.value := by
        rw [← max_eq_left_iff, ← hrank, floatRank, floatRank, Format.rank_of_not_isNaN ha,
          Format.rank_of_not_isNaN hnan, WithTop.coe_inj]
        exact eq_comm
      simp only [decide_eq_true_eq, heq]

/-- **The index is that of the leftmost largest value.** -/
theorem ranked_reduceArgmax (a b : ValueIndex UInt32) :
    (reduceArgmax a b).ranked = leftmost a.ranked b.ranked := by
  refine Prod.ext ?_ ?_
  · rw [leftmost_key]
    show floatRank (reduceArgmax a b).value = _
    rw [reduceArgmax_value]
    exact floatRank_reduceMax a.value b.value
  · refine (reduceArgmax_index a b).trans ?_
    unfold leftmost
    show _ = (if floatRank b.value ≤ floatRank a.value then a.ranked else b.ranked).2
    split
    · rfl
    · rfl

theorem reduceArgmax_assoc (a b c : ValueIndex UInt32) :
    reduceArgmax (reduceArgmax a b) c = reduceArgmax a (reduceArgmax b c) := by
  have hvalue : (reduceArgmax (reduceArgmax a b) c).value
      = (reduceArgmax a (reduceArgmax b c)).value := by
    simp only [reduceArgmax_value, reduceMax_assoc]
  have hindex : (reduceArgmax (reduceArgmax a b) c).ranked
      = (reduceArgmax a (reduceArgmax b c)).ranked := by
    simp only [ranked_reduceArgmax, leftmost_assoc]
  generalize reduceArgmax (reduceArgmax a b) c = x at hvalue hindex ⊢
  generalize reduceArgmax a (reduceArgmax b c) = y at hvalue hindex ⊢
  obtain ⟨v, i⟩ := x
  obtain ⟨w, j⟩ := y
  cases hvalue
  cases (Prod.mk.inj hindex).2
  rfl

instance : Std.Associative (reduceArgmax : ValueIndex UInt32 → _ → _) :=
  ⟨reduceArgmax_assoc⟩

/-! ## A row -/

/-- Element `j` of a row, and its index. -/
def rowPair (row : Nat → UInt16) (j : Nat) : ValueIndex UInt32 :=
  ⟨fp16ToFp32 (row j), UInt32.ofNat j⟩

/-- What a row of `n + 1` elements ends with. -/
def rowMax (row : Nat → UInt16) (n : Nat) : UInt32 :=
  foldRow reduceMax (fun j => fp16ToFp32 (row j)) n

def rowArgmax (row : Nat → UInt16) (n : Nat) : ValueIndex UInt32 :=
  foldRow reduceArgmax (rowPair row) n

theorem rowArgmax_value (row : Nat → UInt16) (n : Nat) :
    (rowArgmax row n).value = rowMax row n :=
  foldRow_map reduceArgmax_value (rowPair row) n

theorem floatKey_rowMax (row : Nat → UInt16) (n : Nat) :
    floatKey (rowMax row n) = foldRow max (fun j => floatKey (fp16ToFp32 (row j))) n :=
  foldRow_map floatKey_reduceMax _ n

/-- The value of a row without NaN is one of its elements. -/
theorem rowMax_mem {row : Nat → UInt16} {n : Nat} (hnan : isnan (rowMax row n) = false) :
    ∃ j ≤ n, rowMax row n = fp16ToFp32 (row j) := by
  obtain ⟨j, hj, hkey⟩ := (foldRow_max (fun j => floatKey (fp16ToFp32 (row j))) n).2
  exact ⟨j, hj, floatKey_inj hnan ((floatKey_rowMax row n).trans hkey)⟩

/-- **What the value of a row must be**, for the elements `row 0 … row n`. -/
structure IsRowMax (row : Nat → UInt16) (n : Nat) (v : UInt16) : Prop where
  nan : (∃ j ≤ n, binary16.isNaN (row j).toNat = true) → binary16.isNaN v.toNat = true
  number : (∀ j ≤ n, binary16.isNaN (row j).toNat = false) →
    binary16.isNaN v.toNat = false ∧ (∃ j ≤ n, v = row j)
      ∧ (∀ j ≤ n, binary16.value (row j).toNat ≤ binary16.value v.toNat)
      ∧ (binary16.value v.toNat = 0 → (∃ j ≤ n, row j = 0) → v = 0)

/-- **What its index must be**: the first NaN, or the first largest element. -/
structure IsRowArgmax (row : Nat → UInt16) (n : Nat) (v : UInt16) (i : Nat) : Prop where
  inRow : i ≤ n
  nan : binary16.isNaN v.toNat = true → binary16.isNaN (row i).toNat = true
    ∧ ∀ j < i, binary16.isNaN (row j).toNat = false
  number : binary16.isNaN v.toNat = false →
    binary16.value (row i).toNat = binary16.value v.toNat
      ∧ ∀ j < i, binary16.value (row j).toNat ≠ binary16.value v.toNat

theorem isNaN_rowMax (row : Nat → UInt16) (n : Nat) :
    isnan (rowMax row n) = true ↔ ∃ j ≤ n, binary16.isNaN (row j).toNat = true := by
  have hmax := foldRow_max (fun j => floatKey (fp16ToFp32 (row j))) n
  rw [← floatKey_rowMax] at hmax
  rw [← floatKey_eq_top]
  constructor
  · intro htop
    obtain ⟨j, hj, hkey⟩ := hmax.2
    rw [htop] at hkey
    exact ⟨j, hj, isNaN_fp16ToFp32 ▸ floatKey_eq_top.mp hkey.symm⟩
  · rintro ⟨j, hj, hnan⟩
    have hle := hmax.1 j hj
    rw [floatKey_eq_top.mpr (show isnan (fp16ToFp32 (row j)) = true from
      isNaN_fp16ToFp32.trans hnan)] at hle
    exact top_le_iff.mp hle

omit [FloatArith] in
theorem floatRank_fp16ToFp32 (h : UInt16) :
    floatRank (fp16ToFp32 h) = binary16.rank h.toNat := by
  cases hnan : binary16.isNaN h.toNat with
  | true =>
      rw [Format.rank_eq_top.mpr hnan]
      exact Format.rank_eq_top.mpr (isNaN_fp16ToFp32.trans hnan)
  | false =>
      rw [floatRank, Format.rank_of_not_isNaN (isNaN_fp16ToFp32.trans hnan),
        Format.rank_of_not_isNaN hnan, value_fp16ToFp32 hnan]

/-- The same number, up to the payload of a NaN and the sign of zero. -/
def SameFloat (a b : UInt16) : Prop := binary16.rank a.toNat = binary16.rank b.toNat

instance (a b : UInt16) : Decidable (SameFloat a b) :=
  inferInstanceAs (Decidable (_ = _))

omit [FloatArith] in
theorem sameFloat_narrow (h : UInt16) : SameFloat (fp32ToFp16 (fp16ToFp32 h)) h := by
  cases hnan : binary16.isNaN h.toNat with
  | true =>
      have hwide : binary32.isNaN (fp16ToFp32 h).toNat = true := isNaN_fp16ToFp32.trans hnan
      rw [SameFloat, Format.rank_eq_top.mpr hnan,
        Format.rank_eq_top.mpr (isNaN_fp32ToFp16 hwide)]
  | false => rw [fp32ToFp16_fp16ToFp32 hnan]; rfl

/-- Widening, `reduceMax` and narrowing take the maximum by value. -/
theorem rank_narrow_reduceMax (a b : UInt16) :
    binary16.rank (fp32ToFp16 (reduceMax (fp16ToFp32 a) (fp16ToFp32 b))).toNat
      = max (binary16.rank a.toNat) (binary16.rank b.toNat) := by
  have hmax := floatRank_reduceMax (fp16ToFp32 a) (fp16ToFp32 b)
  rw [floatRank_fp16ToFp32, floatRank_fp16ToFp32] at hmax
  rcases reduceMax_cases (fp16ToFp32 a) (fp16ToFp32 b) with
    ⟨-, hr⟩ | ⟨-, -, ⟨hr, -⟩ | ⟨hr, -⟩⟩
  · -- the quiet NaN is one in both formats
    rw [← hmax, hr]
    exact (Format.rank_eq_top.mpr (by decide +kernel)).trans
      (Format.rank_eq_top.mpr (by decide +kernel)).symm
  · rw [← hmax, hr, floatRank_fp16ToFp32]
    exact sameFloat_narrow a
  · rw [← hmax, hr, floatRank_fp16ToFp32]
    exact sameFloat_narrow b

/-- The value of a row as a pattern, when it is a number. -/
theorem rowMax_number {row : Nat → UInt16} {n : Nat} (hnan : isnan (rowMax row n) = false) :
    binary16.isNaN (fp32ToFp16 (rowMax row n)).toNat = false
      ∧ rowMax row n = fp16ToFp32 (fp32ToFp16 (rowMax row n))
      ∧ ∃ j ≤ n, fp32ToFp16 (rowMax row n) = row j := by
  obtain ⟨j, hj, hrow⟩ := rowMax_mem hnan
  have hnum : binary16.isNaN (row j).toNat = false := by
    rw [← isNaN_fp16ToFp32, ← hrow]
    exact hnan
  have hback : fp32ToFp16 (rowMax row n) = row j := by
    rw [hrow, fp32ToFp16_fp16ToFp32 hnum]
  rw [hback]
  exact ⟨hnum, hrow, j, hj, rfl⟩

theorem isRowMax_rowMax (row : Nat → UInt16) (n : Nat) :
    IsRowMax row n (fp32ToFp16 (rowMax row n)) where
  nan h := isNaN_fp32ToFp16 ((isNaN_rowMax row n).mpr h)
  number h := by
    have hnan : isnan (rowMax row n) = false := by
      rw [Bool.eq_false_iff, Ne, isNaN_rowMax]
      rintro ⟨j, hj, hj'⟩
      rw [h j hj] at hj'
      cases hj'
    obtain ⟨hv, hwide, hmem⟩ := rowMax_number hnan
    have hle := (foldRow_max (fun j => floatKey (fp16ToFp32 (row j))) n).1
    rw [← floatKey_rowMax, hwide] at hle
    generalize fp32ToFp16 (rowMax row n) = v at hv hmem hle ⊢
    refine ⟨hv, hmem, fun j hj => ?_, fun hzero hplus => ?_⟩
    · have hrank := Format.rank_le_of_key_le (hle j hj)
      change floatRank _ ≤ floatRank _ at hrank
      rwa [floatRank_fp16ToFp32, floatRank_fp16ToFp32, Format.rank_of_not_isNaN (h j hj),
        Format.rank_of_not_isNaN hv, WithTop.coe_le_coe] at hrank
    · -- `+0` has the larger key of the two zeros
      obtain ⟨j, hj, hrow⟩ := hplus
      have hkey := hle j hj
      rw [hrow] at hkey
      have hpos : fp16ToFp32 0 = 0 := by decide
      rw [hpos] at hkey
      have hvalue : floatValue (fp16ToFp32 v) = floatValue 0 := by
        rw [floatValue, value_fp16ToFp32 hv, hzero, floatValue_zero]
      have hnumber : isnan (fp16ToFp32 v) = false := isNaN_fp16ToFp32.trans hv
      have hkey' : floatKey (fp16ToFp32 v) ≤ floatKey 0 :=
        floatKey_le_of_value_eq hnumber (by decide) hvalue (.inr (by decide))
      have hword : fp16ToFp32 v = 0 := floatKey_inj hnumber (le_antisymm hkey' hkey)
      rw [← fp32ToFp16_fp16ToFp32 hv, hword]
      decide

/-- The fold of a row carries the index of its first largest element. -/
theorem rowArgmax_first (row : Nat → UInt16) (n : Nat) :
    ∃ i ≤ n, (rowArgmax row n).index = UInt32.ofNat i
      ∧ floatRank (rowMax row n) = binary16.rank (row i).toNat
      ∧ ∀ j < i, binary16.rank (row j).toNat < binary16.rank (row i).toNat := by
  have hindexed : ∀ a b : WithTop Extended × Nat,
      ((leftmost a b).1, UInt32.ofNat (leftmost a b).2)
        = leftmost (a.1, UInt32.ofNat a.2) (b.1, UInt32.ofNat b.2) := by
    intro a b
    unfold leftmost
    dsimp only
    split
    · rfl
    · rfl
  obtain ⟨i, hi, hfold, -, hlt⟩ :=
    foldRow_leftmost (fun j => binary16.rank (row j).toNat) n
  have hranked : (rowArgmax row n).ranked
      = (binary16.rank (row i).toNat, UInt32.ofNat i) :=
    calc (rowArgmax row n).ranked
        = foldRow leftmost (fun j => (rowPair row j).ranked) n :=
          foldRow_map ranked_reduceArgmax (rowPair row) n
      _ = foldRow leftmost
            (fun j => (binary16.rank (row j).toNat, UInt32.ofNat j)) n :=
          foldRow_congr fun j _ => Prod.ext (floatRank_fp16ToFp32 (row j)) rfl
      _ = (binary16.rank (row i).toNat, UInt32.ofNat i) := by
          have hmap := foldRow_map (g := fun a => (a.1, UInt32.ofNat a.2)) hindexed
            (fun j => (binary16.rank (row j).toNat, j)) n
          rw [hfold] at hmap
          exact hmap.symm
  obtain ⟨hrank, hindex⟩ := Prod.mk.inj hranked
  rw [rowArgmax_value] at hrank
  exact ⟨i, hi, hindex, hrank, hlt⟩

theorem isRowArgmax_rowArgmax (row : Nat → UInt16) (n : Nat) :
    ∃ i, (rowArgmax row n).index = UInt32.ofNat i
      ∧ IsRowArgmax row n (fp32ToFp16 (rowMax row n)) i := by
  obtain ⟨i, hi, hindex, hrank, hlt⟩ := rowArgmax_first row n
  refine ⟨i, hindex, hi, fun hv => ?_, fun hv => ?_⟩
  · have hnan : isnan (rowMax row n) = true := by
      by_contra hne
      rw [(rowMax_number (Bool.eq_false_iff.mpr hne)).1] at hv
      cases hv
    have htop : binary16.rank (row i).toNat = ⊤ :=
      hrank.symm.trans (Format.rank_eq_top.mpr hnan)
    refine ⟨Format.rank_eq_top.mp htop, fun j hj => Bool.eq_false_iff.mpr fun hj' => ?_⟩
    exact absurd (hlt j hj) (by rw [Format.rank_eq_top.mpr hj']; exact not_top_lt)
  · have hnan : isnan (rowMax row n) = false := by
      rw [Bool.eq_false_iff]
      intro h
      rw [isNaN_fp32ToFp16 h] at hv
      cases hv
    rw [(rowMax_number hnan).2.1, floatRank_fp16ToFp32, Format.rank_of_not_isNaN hv]
      at hrank
    have hnumber : ∀ j ≤ i, binary16.isNaN (row j).toNat = false := by
      intro j hj
      rw [Bool.eq_false_iff, Ne, ← Format.rank_eq_top]
      intro htop
      rcases Nat.lt_or_eq_of_le hj with hj | rfl
      · exact absurd (hlt j hj) (by rw [htop]; exact not_top_lt)
      · rw [htop] at hrank
        exact WithTop.coe_ne_top hrank
    rw [← hrank] at hlt
    rw [Format.rank_of_not_isNaN (hnumber i (Nat.le_refl i)), WithTop.coe_inj] at hrank
    refine ⟨hrank.symm, fun j hj heq => ?_⟩
    have := hlt j hj
    rw [Format.rank_of_not_isNaN (hnumber j hj.le), heq] at this
    exact lt_irrefl _ this

end Combine

/-! ## Execution -/

section Execution

variable {F : Type} [Fp32 F]

variable (F) in
/-- The fold of `row 0 … row n` as the executor computes it. -/
def ReduceKind.fold (kind : ReduceKind) (row : Nat → UInt16) : Nat → ValueIndex F
  | 0 => kind.first F (Fp32.fp16ToFp32 (row 0))
  | n + 1 => kind.combine F (kind.fold row n)
      ⟨Fp32.fp16ToFp32 (row (n + 1)), UInt32.ofNat (n + 1)⟩

theorem ReduceKind.fold_congr {kind : ReduceKind} {row row' : Nat → UInt16} {n : Nat}
    (h : ∀ j ≤ n, row j = row' j) : kind.fold F row n = kind.fold F row' n := by
  induction n with
  | zero => rw [fold, fold, h 0 (Nat.le_refl 0)]
  | succ n ih =>
      rw [fold, fold, ih fun j hj => h j (by omega), h (n + 1) (Nat.le_refl _)]

/-- **The arrays of a reduction lie in SRAM, apart from each other.** An index
is as long as two elements. -/
structure ReduceParam.Placed (p : ReduceParam) : Prop where
  src : InSram p.srcAddr.toNat (p.rows.toNat * p.cols.toNat)
  dst : InSram p.dstAddr.toNat p.rows.toNat
  apart : ArraysApart p.srcAddr.toNat (p.rows.toNat * p.cols.toNat) p.dstAddr.toNat
    p.rows.toNat
  idx : p.kind = ReduceKind.ARGMAX.toU32 →
    InSram p.idxAddr.toNat (p.rows.toNat * 2)
      ∧ ArraysApart p.srcAddr.toNat (p.rows.toNat * p.cols.toNat) p.idxAddr.toNat
        (p.rows.toNat * 2)
      ∧ ArraysApart p.dstAddr.toNat p.rows.toNat p.idxAddr.toNat (p.rows.toNat * 2)

/-- The arrays lie in SRAM, wherever they are relative to each other. -/
structure ReduceParam.Resident (p : ReduceParam) : Prop where
  src : InSram p.srcAddr.toNat (p.rows.toNat * p.cols.toNat)
  dst : InSram p.dstAddr.toNat p.rows.toNat
  idx : p.kind = ReduceKind.ARGMAX.toU32 → InSram p.idxAddr.toNat (p.rows.toNat * 2)

/-- **No result lands on what is still needed**: neither the value nor the
index of a row touches a later row of `src`, and values and indices are apart
from each other. -/
structure ReduceParam.Clear (p : ReduceParam) : Prop where
  value : ∀ i j, i < j → j < p.rows.toNat →
    ArraysApart (p.srcAddr.toNat + j * p.cols.toNat * 2) p.cols.toNat
      (p.dstAddr.toNat + i * 2) 1
  index : p.kind = ReduceKind.ARGMAX.toU32 → ∀ i j, i < j → j < p.rows.toNat →
    ArraysApart (p.srcAddr.toNat + j * p.cols.toNat * 2) p.cols.toNat
      (p.idxAddr.toNat + i * 4) 2
  apart : p.kind = ReduceKind.ARGMAX.toU32 →
    ArraysApart p.dstAddr.toNat p.rows.toNat p.idxAddr.toNat (p.rows.toNat * 2)

theorem ReduceParam.Placed.resident {p : ReduceParam} (h : p.Placed) : p.Resident :=
  ⟨h.src, h.dst, fun hk => (h.idx hk).1⟩

/-- Row `j` is part of the array. -/
theorem ReduceParam.rowEnd_le (p : ReduceParam) {j : Nat} (hj : j < p.rows.toNat) :
    j * p.cols.toNat + p.cols.toNat ≤ p.rows.toNat * p.cols.toNat := by
  have h := Nat.mul_le_mul_right p.cols.toNat (show j + 1 ≤ p.rows.toNat from hj)
  rwa [Nat.succ_mul] at h

theorem ReduceParam.Placed.clear {p : ReduceParam} (h : p.Placed) : p.Clear where
  value i j hij hj := by
    have hapart := h.apart
    have hrow := p.rowEnd_le hj
    unfold ArraysApart at hapart ⊢
    omega
  index hk i j hij hj := by
    obtain ⟨-, hapart, -⟩ := h.idx hk
    have hrow := p.rowEnd_le hj
    unfold ArraysApart at hapart ⊢
    omega
  apart hk := (h.idx hk).2.2

/-- Element `j` of row `i` of `src`. -/
def ReduceParam.srcRow (p : ReduceParam) (s : CModel) (i j : Nat) : UInt16 :=
  elemAt s p.srcAddr.toNat (i * p.cols.toNat + j)

variable (F) in
/-- What row `i` of `src` ends with. -/
def ReduceParam.rowValue (p : ReduceParam) (kind : ReduceKind) (s : CModel) (i : Nat) :
    ValueIndex F :=
  kind.fold F (p.srcRow s i) (p.cols.toNat - 1)

/-- **The memory after `n` rows**: their values and indices are written, the
rest is as it was. -/
structure ReduceParam.Written (p : ReduceParam) (kind : ReduceKind)
    (val : Nat → ValueIndex F) (s : CModel) (n : Nat) (t : CModel) : Prop where
  value : ∀ i < n, elemAt t p.dstAddr.toNat i = Fp32.fp32ToFp16 (val i).value
  index : kind = .ARGMAX →
    ∀ i < n, loadU32 t.sramByte (p.idxAddr.toNat + i * 4) = (val i).index
  other : ∀ l, (∀ a, l = .sram a →
    (a < p.dstAddr.toNat ∨ p.dstAddr.toNat + n * 2 ≤ a)
      ∧ (kind = .ARGMAX → a < p.idxAddr.toNat ∨ p.idxAddr.toNat + n * 4 ≤ a)) →
    t l = s l

theorem packedElem_inSram {base : UInt32} {i n : Nat} (h : InSram base.toNat n)
    (hi : i < n) : (packedElem base i).toNat = base.toNat + i * 2 := by
  obtain ⟨-, hend⟩ := h
  rw [sramEnd_eq] at hend
  rw [packedElem_toNat, elemAddr, Nat.mod_eq_of_lt (by omega)]

theorem readFP16_packed {base : UInt32} {i n : Nat} {s : CModel}
    (h : InSram base.toNat n) (hi : i < n) :
    readFP16 F (packedElem base i) s = .ok (Fp32.fp16ToFp32 (elemAt s base.toNat i)) :=
  readFP16_elem (packedElem_inSram h hi) h hi

section Row

variable {p : ReduceParam} {kind : ReduceKind} {s t : CModel} {i n : Nat}

/-- A row is folded from the left. -/
theorem reduceRow_eq (h : p.Resident) (hi : i < p.rows.toNat) (hcols : 0 < p.cols.toNat) :
    reduceRow F p kind i t
      = .ok (p.rowValue F kind t i) := by
  have hread : ∀ j < p.cols.toNat,
      readFP16 F (p.srcElem i j) t = .ok (Fp32.fp16ToFp32 (p.srcRow t i j)) := by
    intro j hj
    rw [srcElem_eq]
    exact readFP16_packed h.src (flat_lt hi hj)
  obtain ⟨r, hloop, hr⟩ := forLoop_spec (n := p.cols.toNat - 1)
    (f := fun j acc => do
      let y ← readFP16 F (p.srcElem i (j + 1)) t
      return kind.combine F acc ⟨y, UInt32.ofNat (j + 1)⟩)
    (s := kind.fold F (p.srcRow t i) 0)
    (fun j acc => acc = kind.fold F (p.srcRow t i) j) rfl
    (fun j hj acc hacc => ⟨kind.fold F (p.srcRow t i) (j + 1), by
      rw [hacc, hread (j + 1) (by omega), ok_bind]
      rfl, rfl⟩)
  have hfirst := hread 0 hcols
  rw [← rowAddr_eq] at hfirst
  rw [reduceRow, hfirst, ok_bind]
  rw [hr] at hloop
  exact hloop

/-- The rows before `i` did not touch row `i` of `src`. -/
theorem ReduceParam.Written.srcRow_eq {val : Nat → ValueIndex F}
    (hw : p.Written kind val s n t) (h : p.Clear)
    (hkind : kind = .ARGMAX → p.kind = ReduceKind.ARGMAX.toU32)
    (hn : n ≤ i) (hi : i < p.rows.toNat) {j : Nat} (hj : j < p.cols.toNat) :
    p.srcRow t i j = p.srcRow s i j := by
  have hsrc : ∀ a, p.srcAddr.toNat + (i * p.cols.toNat + j) * 2 ≤ a →
      a < p.srcAddr.toNat + (i * p.cols.toNat + j) * 2 + 2 → t (.sram a) = s (.sram a) := by
    intro a hlo hhi
    apply hw.other
    rintro b ⟨⟩
    -- a byte among the results would be one of the row `r` written it
    constructor
    · by_contra hin
      have hclear := h.value ((a - p.dstAddr.toNat) / 2) i (by omega) hi
      unfold ArraysApart at hclear
      omega
    · intro hargmax
      by_contra hin
      have hclear := h.index (hkind hargmax) ((a - p.idxAddr.toNat) / 4) i (by omega) hi
      unfold ArraysApart at hclear
      omega
  exact loadU16_congr (hsrc _ (by omega) (by omega)) (hsrc _ (by omega) (by omega))

/-- The value of row `n`. -/
theorem ReduceParam.Written.value_succ {val : Nat → ValueIndex F}
    (hw : p.Written kind val s n t) (hkind : kind ≠ .ARGMAX) :
    p.Written kind val s (n + 1) (t.storeSram (p.dstAddr.toNat + n * 2)
      (u16Bytes (Fp32.fp32ToFp16 (val n).value))) where
  value i hi := by
    rcases Nat.lt_succ_iff_lt_or_eq.mp hi with hlt | rfl
    · rw [← hw.value i hlt]
      exact loadU16_congr (storeSram_out (by omega)) (storeSram_out (by omega))
    · exact elemAt_storeSram
  index hargmax := absurd hargmax hkind
  other l hl := by
    cases l with
    | ddr a => exact hw.other _ (by rintro b ⟨⟩)
    | sram a =>
        have hlen : (u16Bytes (Fp32.fp32ToFp16 (val n).value)).length = 2 := rfl
        have := (hl a rfl).1
        rw [storeSram_out (by omega)]
        apply hw.other
        rintro b ⟨⟩
        exact ⟨by omega, fun hargmax => absurd hargmax hkind⟩

/-- The value and the index of row `n`, at arrays that are apart. -/
theorem ReduceParam.Written.index_succ {val : Nat → ValueIndex F}
    (hw : p.Written kind val s n t) (hkind : kind = .ARGMAX) (hn : n < p.rows.toNat)
    (hapart : ArraysApart p.dstAddr.toNat p.rows.toNat p.idxAddr.toNat
      (p.rows.toNat * 2)) :
    p.Written kind val s (n + 1)
      ((t.storeSram (p.dstAddr.toNat + n * 2)
        (u16Bytes (Fp32.fp32ToFp16 (val n).value))).storeSram
          (p.idxAddr.toNat + n * 4) (u32Bytes (val n).index)) := by
  unfold ArraysApart at hapart
  have hvalue : (u16Bytes (Fp32.fp32ToFp16 (val n).value)).length = 2 := rfl
  have hindex : (u32Bytes (val n).index).length = 4 := rfl
  refine ⟨fun i hi => ?_, fun hargmax i hi => ?_, fun l hl => ?_⟩
  · -- the index lies outside dst
    have hdst : ∀ j < 2, ∀ u : CModel,
        (u.storeSram (p.idxAddr.toNat + n * 4) (u32Bytes (val n).index)).sramByte
          (p.dstAddr.toNat + i * 2 + j) = u.sramByte (p.dstAddr.toNat + i * 2 + j) :=
      fun j hj u => storeSram_out (by omega)
    have hskip : ∀ u : CModel,
        elemAt (u.storeSram (p.idxAddr.toNat + n * 4) (u32Bytes (val n).index))
          p.dstAddr.toNat i = elemAt u p.dstAddr.toNat i :=
      fun u => loadU16_congr (hdst 0 (by omega) u) (hdst 1 (by omega) u)
    rw [hskip]
    rcases Nat.lt_succ_iff_lt_or_eq.mp hi with hlt | rfl
    · rw [← hw.value i hlt]
      exact loadU16_congr (storeSram_out (by omega)) (storeSram_out (by omega))
    · exact elemAt_storeSram
  · rcases Nat.lt_succ_iff_lt_or_eq.mp hi with hlt | rfl
    · rw [← hw.index hargmax i hlt]
      have hkeep : ∀ j < 4,
          ((t.storeSram (p.dstAddr.toNat + n * 2)
            (u16Bytes (Fp32.fp32ToFp16 (val n).value))).storeSram
              (p.idxAddr.toNat + n * 4) (u32Bytes (val n).index)).sramByte
                (p.idxAddr.toNat + i * 4 + j)
            = t.sramByte (p.idxAddr.toNat + i * 4 + j) := by
        intro j hj
        refine (storeSram_out ?_).trans (storeSram_out ?_)
        · omega
        · omega
      have h0 := hkeep 0 (by omega)
      have h1 := hkeep 1 (by omega)
      have h2 := hkeep 2 (by omega)
      have h3 := hkeep 3 (by omega)
      rw [Nat.add_zero] at h0
      rw [loadU32, loadU32, h0, h1, h2, h3]
    · exact loadU32_of_holds (storeSram_holds _ _ _)
  · cases l with
    | ddr a => exact hw.other _ (by rintro b ⟨⟩)
    | sram a =>
        obtain ⟨hdst, hidx⟩ := hl a rfl
        have hidx := hidx hkind
        rw [storeSram_out (by omega), storeSram_out (by omega)]
        apply hw.other
        rintro b ⟨⟩
        exact ⟨by omega, fun _ => by omega⟩

/-- The memory with the result `v` of row `n` written. -/
def ReduceParam.writeRow (p : ReduceParam) (kind : ReduceKind) (n : Nat)
    (v : ValueIndex F) (t : CModel) : CModel :=
  let u := t.storeSram (p.dstAddr.toNat + n * 2) (u16Bytes (Fp32.fp32ToFp16 v.value))
  if kind = .ARGMAX then u.storeSram (p.idxAddr.toNat + n * 4) (u32Bytes v.index) else u

/-- Resident rows are folded and written, overlapping or not. -/
theorem reduceCell_eq (h : p.Resident)
    (hkind : kind = .ARGMAX → p.kind = ReduceKind.ARGMAX.toU32)
    (hcols : 0 < p.cols.toNat) (hn : n < p.rows.toNat) :
    reduceCell F p kind n t
      = .ok (p.writeRow kind n (p.rowValue F kind t n) t) := by
  have hwrite : writeFP16 (p.dstAddr + UInt32.ofNat n * DTYPE_SIZE)
      (p.rowValue F kind t n).value t
        = .ok (t.storeSram (p.dstAddr.toNat + n * 2)
          (u16Bytes (Fp32.fp32ToFp16 (p.rowValue F kind t n).value))) :=
    writeFP16_elem (packedElem_inSram h.dst hn) h.dst hn
  rw [reduceCell, reduceRow_eq h hn hcols, ok_bind, reduceWrite, hwrite, ok_bind,
    ReduceParam.writeRow]
  by_cases hk : kind = .ARGMAX
  · obtain ⟨hlo, hhi⟩ := h.idx (hkind hk)
    have hplace : (p.idxAddr + UInt32.ofNat n * 4).toNat = p.idxAddr.toNat + n * 4 := by
      rw [sramEnd_eq] at hhi
      rw [idxPlace_toNat, elemAddr, Nat.mod_eq_of_lt (by omega)]
    rw [if_pos hk, if_pos hk, sram_ok_iff.mpr ⟨hplace.symm, by omega, by omega⟩, ok_bind,
      (sramSpan_ok_iff (u := ())).mpr (.inr (by omega)), ok_bind]
    rfl
  · rw [if_neg hk, if_neg hk]
    rfl

/-- One more row. -/
theorem reduceCell_clear (h : p.Resident) (hclear : p.Clear)
    (hkind : kind = .ARGMAX → p.kind = ReduceKind.ARGMAX.toU32)
    (hcols : 0 < p.cols.toNat) (hn : n < p.rows.toNat)
    (hw : p.Written kind (p.rowValue F kind s) s n t) :
    ∃ t', reduceCell F p kind n t = .ok t'
      ∧ p.Written kind (p.rowValue F kind s) s (n + 1) t' := by
  have hrow : p.rowValue F kind t n = p.rowValue F kind s n :=
    ReduceKind.fold_congr fun j hj =>
      hw.srcRow_eq hclear hkind (Nat.le_refl n) hn (by omega)
  refine ⟨_, reduceCell_eq h hkind hcols hn, ?_⟩
  rw [hrow, ReduceParam.writeRow]
  by_cases hk : kind = .ARGMAX
  · rw [if_pos hk]
    exact hw.index_succ hk hn (hclear.apart (hkind hk))
  · rw [if_neg hk]
    exact hw.value_succ hk

/-- The checks before the first row. -/
theorem reduce_eq (hkind : p.kind = kind.toU32) (hrows : p.rows ≠ 0) (hcols : p.cols ≠ 0)
    (hidx : kind = .ARGMAX ↔ p.idxAddr ≠ 0) :
    reduce F p s = forLoop p.rows.toNat (reduceCell F p kind) s := by
  have hused : (decide (p.kind = ReduceKind.ARGMAX.toU32) == (p.idxAddr != 0)) = true := by
    rw [beq_iff_eq, Bool.eq_iff_iff, decide_eq_true_eq, bne_iff_ne, ← hidx, hkind]
    exact ⟨ReduceKind.toU32_inj, congrArg _⟩
  rw [reduce, show (p.rows != 0 && p.cols != 0) = true by simp [hrows, hcols],
    assert_true, ok_bind, hused, assert_true, ok_bind, hkind, ReduceKind.ofU32?_toU32]

/-- **REDUCE on clear arrays** writes the fold of every row. -/
theorem reduce_clear (h : p.Resident) (hclear : p.Clear) (hkind : p.kind = kind.toU32)
    (hrows : p.rows ≠ 0) (hcols : p.cols ≠ 0) (hidx : kind = .ARGMAX ↔ p.idxAddr ≠ 0) :
    ∃ s', reduce F p s = .ok s'
      ∧ p.Written kind (p.rowValue F kind s) s p.rows.toNat s' := by
  have hcols' : 0 < p.cols.toNat := by
    have := mt UInt32.toNat_inj.mp hcols
    simp only [UInt32.toNat_zero] at this
    omega
  rw [reduce_eq hkind hrows hcols hidx]
  refine forLoop_spec (n := p.rows.toNat) (f := reduceCell F p kind)
    (s := s) (fun n t => p.Written kind (p.rowValue F kind s) s n t)
    ⟨fun i hi => by omega, fun _ i hi => by omega, fun l _ => rfl⟩
    (fun n hn t hw => reduceCell_clear h hclear ?_ hcols' hn hw)
  rintro rfl
  exact hkind

end Row

end Execution

/-! ## The contract -/

section Contract

variable [FloatArith]

theorem fold_max (row : Nat → UInt16) (n : Nat) :
    (ReduceKind.MAX.fold UInt32 row n).value = rowMax row n := by
  induction n with
  | zero => rfl
  | succ n ih =>
      show reduceMax (ReduceKind.MAX.fold UInt32 row n).value _ = _
      rw [ih]
      rfl

theorem fold_argmax (row : Nat → UInt16) (n : Nat) :
    ReduceKind.ARGMAX.fold UInt32 row n = rowArgmax row n := by
  induction n with
  | zero => rfl
  | succ n ih =>
      show reduceArgmax (ReduceKind.ARGMAX.fold UInt32 row n) _ = _
      rw [ih]
      rfl

/-- **The result of MAX and ARGMAX does not depend on the order.** For a row of
`n + 1` patterns there are a value `v` and an index `i` as the contract wants
them, and they are what the executor writes for every row of a reduction that
holds these patterns, and what every tree over the row's pairs gives. -/
theorem reduce_contract (row : Nat → UInt16) (n : Nat) :
    ∃ v i, IsRowMax row n v ∧ IsRowArgmax row n v i
      ∧ (∀ (kind : ReduceKind) (d : UInt32) (p : ReduceParam) (s : CModel),
          kind = .MAX ∨ kind = .ARGMAX → p.kind = kind.toU32 →
          p.rows ≠ 0 → p.cols.toNat = n + 1 → (kind = .MAX → p.idxAddr = 0) →
          p.Placed → SlotInDdr (.reduce d p) → OwnDesc (.reduce d p) s →
          ∃ s', execReduce UInt32 d s = .ok s'
            ∧ ∀ k < p.rows.toNat, (∀ j ≤ n, p.srcRow s k j = row j) →
              elemAt s' p.dstAddr.toNat k = v
                ∧ (kind = .ARGMAX →
                    (loadU32 s'.sramByte (p.idxAddr.toNat + k * 4)).toNat = i))
      ∧ (∀ t : ReductionTree (ValueIndex UInt32),
          t.leaves = (List.range (n + 1)).map (rowPair row) →
            fp32ToFp16 (t.fold reduceArgmax).value = v
              ∧ (t.fold reduceArgmax).index = UInt32.ofNat i
              ∧ t.fold reduceArgmax = ReduceKind.ARGMAX.fold UInt32 row n)
      ∧ (∀ a b : UInt16, reduceMax (fp16ToFp32 a) (fp16ToFp32 b)
          = reduceMax (fp16ToFp32 b) (fp16ToFp32 a))
      ∧ ∀ a b c : UInt16,
          reduceMax (reduceMax (fp16ToFp32 a) (fp16ToFp32 b)) (fp16ToFp32 c)
            = reduceMax (fp16ToFp32 a) (reduceMax (fp16ToFp32 b) (fp16ToFp32 c)) := by
  obtain ⟨i, hindex, hargmax⟩ := isRowArgmax_rowArgmax row n
  refine ⟨fp32ToFp16 (rowMax row n), i, isRowMax_rowMax row n, hargmax,
    fun kind d p s hk hkind hrows hcols hidx hp hslot hown => ?_, fun t ht => ?_,
    fun a b => reduceMax_comm _ _, fun a b c => reduceMax_assoc _ _ _⟩
  · have hcols' : p.cols ≠ 0 := by
      rintro h
      rw [h] at hcols
      cases hcols
    have hused : kind = .ARGMAX ↔ p.idxAddr ≠ 0 := by
      constructor
      · rintro rfl hzero
        have := (hp.idx hkind).1.1
        rw [hzero] at this
        cases this
      · intro hne
        exact hk.resolve_left fun hmax => hne (hidx hmax)
    obtain ⟨s', hs', hw⟩ := reduce_clear (F := UInt32) (s := s) hp.resident hp.clear
      hkind hrows hcols' hused
    refine ⟨s', ?_, fun k hrow heq => ?_⟩
    · have hexec := exec_toInstruction (F := UInt32) hslot hown
        (StoreAvoids.of_notStore (by simp))
      exact hexec.trans hs'
    · have hval : p.rowValue UInt32 kind s k = kind.fold UInt32 row n := by
        rw [ReduceParam.rowValue, hcols, Nat.add_sub_cancel]
        exact ReduceKind.fold_congr heq
      refine ⟨?_, fun h => ?_⟩
      · rw [hw.value k hrow, hval]
        rcases hk with rfl | rfl
        · rw [fold_max]
          rfl
        · rw [fold_argmax, rowArgmax_value]
          rfl
      · have hlt := p.cols.toNat_lt
        rw [hw.index h k hrow, hval, h, fold_argmax, hindex]
        exact toNat_ofNat_small (by have := hargmax.inRow; omega)
  · have hfold : t.fold reduceArgmax = rowArgmax row n := ReductionTree.fold_eq_foldRow ht
    rw [hfold, fold_argmax, rowArgmax_value]
    exact ⟨rfl, hindex, rfl⟩

end Contract

/-! ### The second of two rows -/

/-- `float` arithmetic where it is exact, and NaN elsewhere. -/
@[reducible] def exactArith : FloatArith where
  add a b := if b = 0 then a else if a = 0 then b else 0x7FC00000
  sub a b := if b = 0 then a else 0x7FC00000
  mul a b :=
    if a = 0 ∧ b = 0 then 0
    else if a = 0x3F800000 then b
    else if a = 0x33800000 ∧ b = 0x33800000 then 0x27800000
    else if a = 0x3F802000 ∧ b = 0x3F802000 then 0x3F804008
    else 0x7FC00000
  div a b := if b = 0x3F800000 then a else 0x7FC00000
  exp a := if a = 0 then 0x3F800000 else 0x7FC00000
  rsqrt a := if a = 0x3F800000 then 0x3F800000 else 0x7FC00000
  silu a := if a = 0 then 0 else 0x7FC00000

/-- ARGMAX of `[5, 0, 0]` and of `[1, 3, 3]`. -/
def argmaxRows : ReduceParam :=
  { kind := ReduceKind.ARGMAX.toU32, srcAddr := 0x10000000, dstAddr := 0x10000100
    idxAddr := 0x10000200, rows := 2, cols := 3 }

def argmaxState : CModel :=
  CModel.storeDdr
    (CModel.storeSram (fun _ => 0) 0x10000000 (integerBytes [5, 0, 0, 1, 3, 3]))
    0x40000100 argmaxRows.bytes

/-- The first of the two largest elements. -/
theorem reduce_contract_argmax : ∃ s',
    @execReduce UInt32 (@binary32Ops exactArith) 0x40000100 argmaxState = .ok s'
      ∧ elemAt s' 0x10000100 1 = intToFp16 3
      ∧ (loadU32 s'.sramByte (0x10000200 + 1 * 4)).toNat = 1 := by
  obtain ⟨v, i, hmax, hargmax, hexec, -⟩ := @reduce_contract exactArith
    (argmaxRows.srcRow argmaxState 1) 2
  have hplaced : argmaxRows.Placed :=
    { src := by decide, dst := by decide, apart := by decide, idx := fun _ => by decide }
  obtain ⟨s', hs', hrow⟩ := hexec .ARGMAX 0x40000100 argmaxRows argmaxState (.inr rfl) rfl
    (by decide) rfl (fun h => by cases h) hplaced (fun _ => ⟨by decide, by decide⟩)
    (storeDdr_holds _ _ _)
  obtain ⟨hv, hi⟩ := hrow 1 (by decide) fun j hj => rfl
  have hnumbers : ∀ j ≤ 2,
      binary16.isNaN (argmaxRows.srcRow argmaxState 1 j).toNat = false := by decide +kernel
  obtain ⟨hnan, ⟨j, hj, hvj⟩, hle, -⟩ := hmax.number hnumbers
  obtain ⟨hat, hfirst⟩ := hargmax.number hnan
  -- the value is that of element 1 or 2, and element 1 comes first
  have hlargest : ∀ j ≤ 2, binary16.value (argmaxRows.srcRow argmaxState 1 1).toNat
      ≤ binary16.value (argmaxRows.srcRow argmaxState 1 j).toNat →
      argmaxRows.srcRow argmaxState 1 j = intToFp16 3 := by decide +kernel
  have hv3 : v = intToFp16 3 := by
    have h1 := hle 1 (by decide)
    rw [hvj] at h1 ⊢
    exact hlargest j hj h1
  subst hv3
  refine ⟨s', hs', hv, (hi rfl).trans ?_⟩
  have hle1 : i ≤ 1 := by
    by_contra hlt
    exact hfirst 1 (by omega) (by decide +kernel)
  have hne0 : i ≠ 0 := by
    rintro rfl
    revert hat
    decide +kernel
  omega

end EclipseNpu.Runtime

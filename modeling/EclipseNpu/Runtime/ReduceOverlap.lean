import EclipseNpu.Runtime.DmaWords
import EclipseNpu.Runtime.ReduceContract

/-!
# Runtime — ReduceOverlap

Which placements of its arrays REDUCE survives. `execReduce` asserts nothing
about addresses, so a result may land on a row of `src` that is still to be
read, or a value on an index. Arrays that are `Clear` are reduced correctly
(`reduce_clear`); for any other placement there are contents that go wrong: a
row of zeros and one number, of which an earlier result erases a byte
(`Erased`), or equal rows, whose value and index share a byte.
-/

namespace EclipseNpu.Runtime

open EclipseNpu.Lib EclipseNpu.Lib.Ieee754

/-! ## Rows with one number -/

/-- A number that is zero or more. -/
structure NonNegative (a : UInt32) : Prop where
  number : isnan a = false
  sign : binary32.negative a.toNat = false

/-- Where `float` addition and multiplication are exact: zero is neutral, and
these squares are representable. -/
structure FloatArith.Exact [FloatArith] : Prop where
  add_zero : ∀ a, NonNegative a → FloatArith.add a 0 = a
  zero_add : ∀ a, NonNegative a → FloatArith.add 0 a = a
  square_zero : FloatArith.mul 0 0 = 0
  /-- `2^-24` -/
  square_least : FloatArith.mul 0x33800000 0x33800000 = 0x27800000
  square_one : FloatArith.mul 0x3F800000 0x3F800000 = 0x3F800000
  /-- `1 + 2^-10` -/
  square_next : FloatArith.mul 0x3F802000 0x3F802000 = 0x3F804008

theorem floatKey_zero_le {a : UInt32} (h : NonNegative a) : floatKey 0 ≤ floatKey a := by
  have hzero : isnan 0 = false := by decide
  have hle : floatValue 0 ≤ floatValue a := by
    rw [floatValue_zero]
    exact Format.zero_le_value h.sign
  rcases hle.lt_or_eq with hlt | heq
  · exact floatKey_le_of_value_lt hzero h.number hlt
  · exact floatKey_le_of_value_eq hzero h.number heq (.inr h.sign)

theorem nonNegative_zero : NonNegative 0 := ⟨by decide, by decide⟩

theorem fp16ToFp32_zero : fp16ToFp32 0 = 0 := by decide +kernel

section Combine

variable [FloatArith]

theorem reduceMax_zero {a : UInt32} (h : NonNegative a) : reduceMax a 0 = a := by
  have hkey := floatKey_reduceMax a 0
  rw [max_eq_left (floatKey_zero_le h)] at hkey
  refine (floatKey_inj h.number hkey.symm).symm

theorem zero_reduceMax {a : UInt32} (h : NonNegative a) : reduceMax 0 a = a :=
  (reduceMax_comm 0 a).trans (reduceMax_zero h)

theorem reduceMax_self {a : UInt32} (h : isnan a = false) : reduceMax a a = a := by
  have hkey := floatKey_reduceMax a a
  rw [max_self] at hkey
  exact (floatKey_inj h hkey.symm).symm

/-- What an element adds to the value of its row. -/
def ReduceKind.term : ReduceKind → UInt32 → UInt32
  | .SQUARE_SUM, x => FloatArith.mul x x
  | _, x => x

theorem ReduceKind.term_zero (hexact : FloatArith.Exact) (kind : ReduceKind) :
    kind.term 0 = 0 := by
  cases kind
  case SQUARE_SUM => exact hexact.square_zero
  all_goals rfl

theorem first_value (kind : ReduceKind) (x : UInt32) :
    (kind.first UInt32 x).value = kind.term x := by
  cases kind <;> rfl

/-- After zeros comes the number. -/
theorem combine_zero_left (hexact : FloatArith.Exact) {kind : ReduceKind}
    {a b : ValueIndex UInt32} (ha : a.value = 0) (hb : NonNegative (kind.term b.value)) :
    (kind.combine UInt32 a b).value = kind.term b.value := by
  cases kind
  case MAX =>
    show reduceMax a.value b.value = _
    rw [ha]
    exact zero_reduceMax hb
  case SUM =>
    show FloatArith.add a.value b.value = _
    rw [ha]
    exact hexact.zero_add _ hb
  case SQUARE_SUM =>
    show FloatArith.add a.value (FloatArith.mul b.value b.value) = _
    rw [ha]
    exact hexact.zero_add _ hb
  case ARGMAX =>
    show (reduceArgmax a b).value = _
    rw [reduceArgmax_value, ha]
    exact zero_reduceMax hb

/-- More zeros change nothing. -/
theorem combine_zero_right (hexact : FloatArith.Exact) {kind : ReduceKind}
    {a b : ValueIndex UInt32} (ha : NonNegative a.value) (hb : b.value = 0) :
    (kind.combine UInt32 a b).value = a.value := by
  cases kind
  case MAX =>
    show reduceMax a.value b.value = _
    rw [hb]
    exact reduceMax_zero ha
  case SUM =>
    show FloatArith.add a.value b.value = _
    rw [hb]
    exact hexact.add_zero _ ha
  case SQUARE_SUM =>
    show FloatArith.add a.value (FloatArith.mul b.value b.value) = _
    rw [hb, hexact.square_zero]
    exact hexact.add_zero _ ha
  case ARGMAX =>
    show (reduceArgmax a b).value = _
    rw [reduceArgmax_value, hb]
    exact reduceMax_zero ha

/-- A row of zeros with the pattern `x` at column `c`. -/
def singleRow (c : Nat) (x : UInt16) (j : Nat) : UInt16 := if j = c then x else 0

/-- **Its fold is the number**, once the column has been read. -/
theorem fold_single (hexact : FloatArith.Exact) {kind : ReduceKind} {c : Nat} {x : UInt16}
    (hx : NonNegative (kind.term (fp16ToFp32 x))) (n : Nat) :
    (kind.fold UInt32 (singleRow c x) n).value
      = if c ≤ n then kind.term (fp16ToFp32 x) else 0 := by
  have hzero := kind.term_zero hexact
  have hother : ∀ j, j ≠ c → fp16ToFp32 (singleRow c x j) = 0 := by
    intro j hj
    rw [singleRow, if_neg hj, fp16ToFp32_zero]
  have hat : singleRow c x c = x := if_pos rfl
  induction n with
  | zero =>
      show (kind.first UInt32 (fp16ToFp32 (singleRow c x 0))).value = _
      rw [first_value]
      by_cases hc : c = 0
      · subst hc
        rw [hat, if_pos (Nat.le_refl 0)]
      · rw [hother 0 (Ne.symm hc), hzero, if_neg (by omega)]
  | succ n ih =>
      show (kind.combine UInt32 (kind.fold UInt32 (singleRow c x) n)
        ⟨fp16ToFp32 (singleRow c x (n + 1)), UInt32.ofNat (n + 1)⟩).value = _
      rcases Nat.lt_trichotomy c (n + 1) with hlt | heq | hgt
      · rw [if_pos (by omega)] at ih
        rw [combine_zero_right hexact (by rw [ih]; exact hx) (hother _ (by omega)), ih,
          if_pos (by omega)]
      · rw [if_neg (by omega)] at ih
        rw [← heq, hat, if_pos (Nat.le_refl c)]
        exact combine_zero_left hexact ih hx
      · rw [if_neg (by omega)] at ih
        rw [combine_zero_right hexact (by rw [ih]; exact nonNegative_zero)
          (hother _ (by omega)), ih, if_neg (by omega)]

/-- In a row of equal numbers the first one wins. -/
theorem fold_constant {x : UInt16} (hx : isnan (fp16ToFp32 x) = false) (n : Nat) :
    ReduceKind.ARGMAX.fold UInt32 (fun _ => x) n = ⟨fp16ToFp32 x, 0⟩ := by
  induction n with
  | zero => rfl
  | succ n ih =>
      show reduceArgmax (ReduceKind.ARGMAX.fold UInt32 (fun _ => x) n)
        ⟨fp16ToFp32 x, UInt32.ofNat (n + 1)⟩ = _
      rw [ih]
      have hvalue := reduceArgmax_value ⟨fp16ToFp32 x, 0⟩
        ⟨fp16ToFp32 x, UInt32.ofNat (n + 1)⟩
      have hindex := reduceArgmax_index ⟨fp16ToFp32 x, 0⟩
        ⟨fp16ToFp32 x, UInt32.ofNat (n + 1)⟩
      rw [reduceMax_self hx] at hvalue
      rw [if_pos (le_refl _)] at hindex
      generalize reduceArgmax (⟨fp16ToFp32 x, 0⟩ : ValueIndex UInt32)
        ⟨fp16ToFp32 x, UInt32.ofNat (n + 1)⟩ = r at hvalue hindex ⊢
      obtain ⟨v, i⟩ := r
      cases hvalue
      cases hindex
      rfl

/-! ## The number that is erased

`0x3C01` is `1 + 2^-10`. With either byte, or both, zeroed it is another
number, and so is its square. -/

/-- What may be left of the number. -/
structure Spoiled (x : UInt16) : Prop where
  low : x.toNat % 256 = 0 ∨ x.toNat % 256 = 1
  high : x.toNat / 256 = 0 ∨ x.toNat / 256 = 60
  hit : x.toNat % 256 = 0 ∨ x.toNat / 256 = 0

omit [FloatArith] in
theorem Spoiled.cases {x : UInt16} (h : Spoiled x) :
    x = 0 ∨ x = 0x0001 ∨ x = 0x3C00 := by
  have hlow := h.low
  have hhigh := h.high
  have hhit := h.hit
  have hval : x.toNat = 0 ∨ x.toNat = 1 ∨ x.toNat = 15360 := by omega
  rcases hval with hval | hval | hval
  · exact .inl (UInt16.toNat_inj.mp hval)
  · exact .inr (.inl (UInt16.toNat_inj.mp hval))
  · exact .inr (.inr (UInt16.toNat_inj.mp hval))

/-- The three values and their squares. -/
theorem term_values (hexact : FloatArith.Exact) (kind : ReduceKind) :
    (kind.term (fp16ToFp32 0x3C01) = 0x3F802000
        ∧ kind.term (fp16ToFp32 0x3C00) = 0x3F800000
        ∧ kind.term (fp16ToFp32 0x0001) = 0x33800000)
      ∨ (kind.term (fp16ToFp32 0x3C01) = 0x3F804008
        ∧ kind.term (fp16ToFp32 0x3C00) = 0x3F800000
        ∧ kind.term (fp16ToFp32 0x0001) = 0x27800000) := by
  have hnext : fp16ToFp32 0x3C01 = 0x3F802000 := by decide +kernel
  have hone : fp16ToFp32 0x3C00 = 0x3F800000 := by decide +kernel
  have hleast : fp16ToFp32 0x0001 = 0x33800000 := by decide +kernel
  rw [hnext, hone, hleast]
  cases kind
  case SQUARE_SUM =>
    exact .inr ⟨hexact.square_next, hexact.square_one, hexact.square_least⟩
  all_goals exact .inl ⟨rfl, rfl, rfl⟩

/-- **Erasing a byte of the number shows in the result.** -/
theorem Spoiled.visible {x : UInt16} (h : Spoiled x) (hexact : FloatArith.Exact)
    (kind : ReduceKind) : NonNegative (kind.term (fp16ToFp32 x))
      ∧ fp32ToFp16 (kind.term (fp16ToFp32 x))
        ≠ fp32ToFp16 (kind.term (fp16ToFp32 0x3C01)) := by
  have hzero : kind.term (fp16ToFp32 0) = 0 := by
    rw [fp16ToFp32_zero, kind.term_zero hexact]
  rcases h.cases with rfl | rfl | rfl
  · rw [hzero]
    refine ⟨nonNegative_zero, ?_⟩
    rcases term_values hexact kind with ⟨hnext, -, -⟩ | ⟨hnext, -, -⟩
    · rw [hnext]; decide +kernel
    · rw [hnext]; decide +kernel
  · rcases term_values hexact kind with ⟨hnext, -, hleast⟩ | ⟨hnext, -, hleast⟩
    · rw [hnext, hleast]
      exact ⟨⟨by decide +kernel, by decide +kernel⟩, by decide +kernel⟩
    · rw [hnext, hleast]
      exact ⟨⟨by decide +kernel, by decide +kernel⟩, by decide +kernel⟩
  · rcases term_values hexact kind with ⟨hnext, hone, -⟩ | ⟨hnext, hone, -⟩
    · rw [hnext, hone]
      exact ⟨⟨by decide +kernel, by decide +kernel⟩, by decide +kernel⟩
    · rw [hnext, hone]
      exact ⟨⟨by decide +kernel, by decide +kernel⟩, by decide +kernel⟩

theorem nonNegative_next (hexact : FloatArith.Exact) (kind : ReduceKind) :
    NonNegative (kind.term (fp16ToFp32 0x3C01)) := by
  rcases term_values hexact kind with ⟨hnext, -, -⟩ | ⟨hnext, -, -⟩
  · rw [hnext]
    exact ⟨by decide +kernel, by decide +kernel⟩
  · rw [hnext]
    exact ⟨by decide +kernel, by decide +kernel⟩

end Combine

/-! ## Bytes -/

/-- SRAM bytes `f`, and the descriptor of `x` in its slot. -/
def sramWith (x : EasmInsn) (f : Nat → UInt8) : CModel
  | .sram a => f a
  | .ddr a => withDesc x (.ddr a)

theorem ownDesc_sramWith (x : EasmInsn) (f : Nat → UInt8) : OwnDesc x (sramWith x f) :=
  (ownDesc_withDesc x).congr fun _ _ => rfl

theorem toNat_loadU16 (rd : Nat → UInt8) (a : Nat) :
    (loadU16 rd a).toNat = (rd a).toNat + 256 * (rd (a + 1)).toNat := by
  have h0 := (rd a).toNat_lt
  have h1 := (rd (a + 1)).toNat_lt
  rw [loadU16, UInt16.toNat_ofNat', Nat.mod_eq_of_lt (by omega)]

/-- A zero index is four zero bytes. -/
theorem byte_of_loadU32_zero {rd : Nat → UInt8} {a k : Nat} (h : loadU32 rd a = 0)
    (hk : k < 4) : rd (a + k) = 0 := by
  have h0 := (rd a).toNat_lt
  have h1 := (rd (a + 1)).toNat_lt
  have h2 := (rd (a + 2)).toNat_lt
  have h3 := (rd (a + 3)).toNat_lt
  have hsum := congrArg UInt32.toNat h
  rw [loadU32, UInt32.toNat_ofNat', UInt32.toNat_zero, Nat.mod_eq_of_lt (by omega)] at hsum
  apply UInt8.toNat_inj.mp
  rw [UInt8.toNat_zero]
  obtain rfl | rfl | rfl | rfl : k = 0 ∨ k = 1 ∨ k = 2 ∨ k = 3 := by omega
  · rw [Nat.add_zero]
    omega
  · omega
  · omega
  · omega

/-- Arrays that are not apart share a byte. -/
theorem exists_shared {base n base' n' : Nat} (hn : 0 < n) (hn' : 0 < n')
    (h : ¬ ArraysApart base n base' n') :
    ∃ a, base ≤ a ∧ a < base + n * 2 ∧ base' ≤ a ∧ a < base' + n' * 2 := by
  unfold ArraysApart at h
  rcases Nat.le_total base base' with hle | hle
  · exact ⟨base', by omega⟩
  · exact ⟨base, by omega⟩

theorem u16Bytes_zero : ∀ x ∈ u16Bytes (fp32ToFp16 0), x = 0 := by decide +kernel

theorem u32Bytes_zero : ∀ x ∈ u32Bytes 0, x = 0 := by decide +kernel

/-- Storing zeros. -/
theorem storeSram_zeros {s : CModel} {p a : Nat} {bs : List UInt8}
    (hbs : ∀ b ∈ bs, b = 0) :
    s.storeSram p bs (.sram a) = if p ≤ a ∧ a < p + bs.length then 0 else s (.sram a) := by
  by_cases h : p ≤ a ∧ a < p + bs.length
  · rw [if_pos h]
    show (if p ≤ a ∧ a < p + bs.length then bs.getD (a - p) 0 else s (.sram a)) = 0
    rw [if_pos h, List.getD_eq_getElem?_getD,
      List.getElem?_eq_getElem (show a - p < bs.length by omega)]
    exact hbs _ (List.getElem_mem _)
  · rw [if_neg h]
    exact storeSram_out (by omega)

section Overlap

variable {p : ReduceParam} {kind : ReduceKind} {d : UInt32}

/-- A reduction whose checks pass. -/
structure ReduceParam.Accepted (p : ReduceParam) (kind : ReduceKind) : Prop where
  rows : p.rows ≠ 0
  cols : p.cols ≠ 0
  idx : kind = .ARGMAX ↔ p.idxAddr ≠ 0

theorem ReduceParam.Accepted.pos (h : p.Accepted kind) :
    0 < p.rows.toNat ∧ 0 < p.cols.toNat := by
  have hr := mt UInt32.toNat_inj.mp h.rows
  have hc := mt UInt32.toNat_inj.mp h.cols
  rw [UInt32.toNat_zero] at hr hc
  omega

/-! ### Values and indices -/

/-- Every element of `src` is `0x3C01`. -/
def paved (d : UInt32) (p : ReduceParam) : CModel :=
  sramWith (.reduce d p) fun a => if a % 2 = p.srcAddr.toNat % 2 then 0x01 else 0x3C

theorem srcRow_paved (i : Nat) : p.srcRow (paved d p) i = fun _ => 0x3C01 := by
  funext j
  apply UInt16.toNat_inj.mp
  rw [ReduceParam.srcRow, elemAt, toNat_loadU16]
  show (if _ = _ then (0x01 : UInt8) else 0x3C).toNat
    + 256 * (if _ = _ then (0x01 : UInt8) else 0x3C).toNat = _
  rw [if_pos (by omega), if_neg (by omega)]
  rfl

variable [FloatArith]

/-- The result a reduction with resident arrays must leave, on every memory
that holds its descriptor. -/
def ReduceParam.Correct (p : ReduceParam) (kind : ReduceKind) (d : UInt32) : Prop :=
  ∀ s s', OwnDesc (.reduce d p) s → execReduce UInt32 d s = .ok s' →
    p.Written kind (p.rowValue UInt32 kind s) s p.rows.toNat s'

/-- The executor on the memory of the descriptor. -/
theorem execReduce_own (hslot : SlotInDdr (.reduce d p)) {s : CModel}
    (hown : OwnDesc (.reduce d p) s) : execReduce UInt32 d s = reduce UInt32 p s :=
  exec_toInstruction (x := .reduce d p) hslot hown (StoreAvoids.of_notStore (by simp))

/-- A reduction that completes passed the checks. -/
theorem accepted_of_ok (hkind : p.kind = kind.toU32) {s s' : CModel}
    (h : reduce UInt32 p s = .ok s') : p.Accepted kind := by
  obtain ⟨u, hu, h⟩ := bind_ok h
  obtain ⟨v, hv, -⟩ := bind_ok h
  rw [assert_ok_iff] at hu hv
  rw [Bool.and_eq_true, bne_iff_ne, bne_iff_ne] at hu
  rw [beq_iff_eq, Bool.eq_iff_iff, decide_eq_true_eq, bne_iff_ne, hkind] at hv
  refine ⟨hu.1, hu.2, fun h => hv.mp (congrArg _ h), fun h => ?_⟩
  exact ReduceKind.toU32_inj (hv.mpr h)

/-- A reduction with resident arrays completes, and leaves what it must. -/
theorem correct_run (hacc : p.Accepted kind) (hkind : p.kind = kind.toU32)
    (hslot : SlotInDdr (.reduce d p)) (hcorrect : p.Correct kind d)
    {s : CModel} (hown : OwnDesc (.reduce d p) s) (P : Nat → CModel → Prop) (h0 : P 0 s)
    (hstep : ∀ n < p.rows.toNat, ∀ t, P n t →
      ∃ t', reduceCell UInt32 p kind n t = .ok t' ∧ P (n + 1) t') :
    ∃ s', P p.rows.toNat s'
      ∧ p.Written kind (p.rowValue UInt32 kind s) s p.rows.toNat s' := by
  obtain ⟨s', hs', hP⟩ := forLoop_spec P h0 hstep
  refine ⟨s', hP, hcorrect s s' hown ?_⟩
  rw [execReduce_own hslot hown, reduce_eq hkind hacc.rows hacc.cols hacc.idx]
  exact hs'

/-- **Values and indices must be apart**: the value of a row of `0x3C01` has
no zero byte, its index has no other. -/
theorem apart_of_correct (hacc : p.Accepted kind) (hkind : p.kind = kind.toU32)
    (hres : p.Resident) (hslot : SlotInDdr (.reduce d p)) (hcorrect : p.Correct kind d)
    (hargmax : kind = .ARGMAX) :
    ArraysApart p.dstAddr.toNat p.rows.toNat p.idxAddr.toNat (p.rows.toNat * 2) := by
  subst hargmax
  obtain ⟨hrows, hcols⟩ := hacc.pos
  obtain ⟨s', -, hw⟩ := correct_run hacc hkind hslot hcorrect
    (s := paved d p) (ownDesc_sramWith _ _) (fun _ _ => True) trivial
    fun n hn t _ => ⟨_, reduceCell_eq hres (fun _ => hkind) hcols hn, trivial⟩
  have hrow : ∀ i, p.rowValue UInt32 .ARGMAX (paved d p) i = ⟨fp16ToFp32 0x3C01, 0⟩ := by
    intro i
    rw [ReduceParam.rowValue, srcRow_paved]
    exact fold_constant (by decide +kernel) _
  by_contra hapart
  obtain ⟨a, hd, hd', hi, hi'⟩ := exists_shared hrows (by omega) hapart
  have hvalue := hw.value ((a - p.dstAddr.toNat) / 2) (by omega)
  have hindex := hw.index rfl ((a - p.idxAddr.toNat) / 4) (by omega)
  rw [hrow] at hvalue hindex
  have hzero := byte_of_loadU32_zero hindex
    (show (a - p.idxAddr.toNat) % 4 < 4 from Nat.mod_lt _ (by decide))
  rw [show p.idxAddr.toNat + (a - p.idxAddr.toNat) / 4 * 4 + (a - p.idxAddr.toNat) % 4
    = a by omega] at hzero
  have hvalue := congrArg UInt16.toNat hvalue
  rw [show Fp32.fp32ToFp16 (fp16ToFp32 0x3C01) = 0x3C01 from
    fp32ToFp16_fp16ToFp32 (by decide +kernel), elemAt, toNat_loadU16] at hvalue
  change _ = 15361 at hvalue
  -- the byte is the lower or the upper one of its value
  have h0 := (s'.sramByte (p.dstAddr.toNat + (a - p.dstAddr.toNat) / 2 * 2)).toNat_lt
  obtain ha | ha : a = p.dstAddr.toNat + (a - p.dstAddr.toNat) / 2 * 2
      ∨ a = p.dstAddr.toNat + (a - p.dstAddr.toNat) / 2 * 2 + 1 := by omega
  · rw [← ha, hzero, UInt8.toNat_zero] at hvalue
    omega
  · rw [← ha, hzero, UInt8.toNat_zero] at hvalue
    omega

/-! ### Results and later rows -/

/-- Zeros, with `0x3C01` at `K`. -/
def marked (d : UInt32) (p : ReduceParam) (K : Nat) : CModel :=
  sramWith (.reduce d p) fun a => if a = K then 0x01 else if a = K + 1 then 0x3C else 0

/-- The bytes row `n` writes. -/
def ReduceParam.Hits (p : ReduceParam) (kind : ReduceKind) (n a : Nat) : Prop :=
  (p.dstAddr.toNat + n * 2 ≤ a ∧ a < p.dstAddr.toNat + n * 2 + 2)
    ∨ (kind = .ARGMAX ∧ p.idxAddr.toNat + n * 4 ≤ a ∧ a < p.idxAddr.toNat + n * 4 + 4)

/-- A row of zeros writes zeros. -/
theorem writeRow_zero {v : ValueIndex UInt32} {t : CModel} {n : Nat} (hv : v.value = 0)
    (hi : kind = .ARGMAX → v.index = 0) (b : Nat) :
    (p.Hits kind n b → p.writeRow kind n v t (.sram b) = 0)
      ∧ (p.writeRow kind n v t (.sram b) = 0
        ∨ p.writeRow kind n v t (.sram b) = t (.sram b)) := by
  have hvalue : ∀ x ∈ u16Bytes (Fp32.fp32ToFp16 v.value), x = 0 := by
    rw [hv]
    exact u16Bytes_zero
  have hlen : (u16Bytes (Fp32.fp32ToFp16 v.value)).length = 2 := rfl
  have hlen' : (u32Bytes v.index).length = 4 := rfl
  rw [ReduceParam.writeRow]
  unfold ReduceParam.Hits
  by_cases hk : kind = .ARGMAX
  · have hindex : ∀ x ∈ u32Bytes v.index, x = 0 := by
      rw [hi hk]
      exact u32Bytes_zero
    rw [if_pos hk, storeSram_zeros hindex, storeSram_zeros hvalue, hlen, hlen']
    constructor
    · rintro (hdst | ⟨-, hidx⟩)
      · rw [if_pos hdst, ite_self]
      · rw [if_pos hidx]
    · split_ifs
      · exact .inl rfl
      · exact .inl rfl
      · exact .inr rfl
  · rw [if_neg hk, storeSram_zeros hvalue, hlen]
    constructor
    · rintro (hdst | ⟨hk', -⟩)
      · rw [if_pos hdst]
      · exact absurd hk' hk
    · split_ifs
      · exact .inl rfl
      · exact .inr rfl

/-- Once values and indices are apart, a later row leaves the value of row
`j` alone. -/
theorem elemAt_writeRow_ne {v : ValueIndex UInt32} {t : CModel} {n j : Nat}
    (hapart : kind = .ARGMAX → ArraysApart p.dstAddr.toNat p.rows.toNat p.idxAddr.toNat
      (p.rows.toNat * 2)) (hn : n < p.rows.toNat) (hj : j < n) :
    elemAt (p.writeRow kind n v t) p.dstAddr.toNat j = elemAt t p.dstAddr.toNat j := by
  have hlen : (u16Bytes (Fp32.fp32ToFp16 v.value)).length = 2 := rfl
  have hlen' : (u32Bytes v.index).length = 4 := rfl
  have hkeep : ∀ k < 2, p.writeRow kind n v t (.sram (p.dstAddr.toNat + j * 2 + k))
      = t (.sram (p.dstAddr.toNat + j * 2 + k)) := by
    intro k hk
    rw [ReduceParam.writeRow]
    by_cases hargmax : kind = .ARGMAX
    · have := hapart hargmax
      unfold ArraysApart at this
      rw [if_pos hargmax, storeSram_out (by omega), storeSram_out (by omega)]
    · rw [if_neg hargmax, storeSram_out (by omega)]
  exact loadU16_congr (hkeep 0 (by omega)) (hkeep 1 (by omega))

/-- What row `j` of the output holds once it is written. -/
theorem elemAt_writeRow {v : ValueIndex UInt32} {t : CModel} {j : Nat}
    (hapart : kind = .ARGMAX → ArraysApart p.dstAddr.toNat p.rows.toNat p.idxAddr.toNat
      (p.rows.toNat * 2)) (hj : j < p.rows.toNat) :
    elemAt (p.writeRow kind j v t) p.dstAddr.toNat j = fp32ToFp16 v.value := by
  have hlen' : (u32Bytes v.index).length = 4 := rfl
  rw [ReduceParam.writeRow]
  by_cases hargmax : kind = .ARGMAX
  · have := hapart hargmax
    unfold ArraysApart at this
    have hskip : ∀ u : CModel,
        elemAt (u.storeSram (p.idxAddr.toNat + j * 4) (u32Bytes v.index)) p.dstAddr.toNat j
          = elemAt u p.dstAddr.toNat j :=
      fun u => loadU16_congr (storeSram_out (by omega)) (storeSram_out (by omega))
    rw [if_pos hargmax, hskip]
    exact elemAt_storeSram
  · rw [if_neg hargmax]
    exact elemAt_storeSram

/-- The memory before row `n`: nothing but zeros is new, and row `i` has
zeroed the byte `a`. -/
structure Erased (s : CModel) (a i n : Nat) (t : CModel) : Prop where
  bytes : ∀ b, t (.sram b) = 0 ∨ t (.sram b) = s (.sram b)
  gone : i < n → t (.sram a) = 0

section Marked

variable {s t : CModel} {a i j c n : Nat}

/-- The place of element `c` of row `j`. -/
def ReduceParam.place (p : ReduceParam) (j c : Nat) : Nat :=
  p.srcAddr.toNat + (j * p.cols.toNat + c) * 2

omit [FloatArith] in
/-- Every other element is still zero. -/
theorem Erased.srcRow_zero (he : Erased (marked d p (p.place j c)) a i n t) {r k : Nat}
    (hne : r * p.cols.toNat + k ≠ j * p.cols.toNat + c) : p.srcRow t r k = 0 := by
  have hzero : ∀ b, b ≠ p.place j c → b ≠ p.place j c + 1 → t (.sram b) = 0 := by
    intro b h0 h1
    rcases he.bytes b with h | h
    · exact h
    · refine h.trans ?_
      show (if b = p.place j c then (0x01 : UInt8) else if b = p.place j c + 1 then 0x3C else 0) = 0
      rw [if_neg h0, if_neg h1]
  unfold ReduceParam.place at hzero
  apply UInt16.toNat_inj.mp
  rw [ReduceParam.srcRow, elemAt, toNat_loadU16]
  show (t (.sram _)).toNat + 256 * (t (.sram _)).toNat = 0
  rw [hzero _ (by omega) (by omega), hzero _ (by omega) (by omega)]
  rfl

omit [FloatArith] in
/-- What is left of the marked element. -/
theorem Erased.spoiled (he : Erased (marked d p (p.place j c)) a i n t) (hi : i < n)
    (ha : a = p.place j c ∨ a = p.place j c + 1) : Spoiled (p.srcRow t j c) := by
  have hgone := he.gone hi
  have h0 := he.bytes (p.place j c)
  have h1 := he.bytes (p.place j c + 1)
  have hs0 : marked d p (p.place j c) (.sram (p.place j c)) = 0x01 := if_pos rfl
  have hs1 : marked d p (p.place j c) (.sram (p.place j c + 1)) = 0x3C :=
    (if_neg (by omega)).trans (if_pos rfl)
  rw [hs0] at h0
  rw [hs1] at h1
  have hval := toNat_loadU16 t.sramByte (p.place j c)
  change (p.srcRow t j c).toNat = (t (.sram (p.place j c))).toNat
    + 256 * (t (.sram (p.place j c + 1))).toNat at hval
  have hlow : (t (.sram (p.place j c))).toNat = 0
      ∨ (t (.sram (p.place j c))).toNat = 1 := by
    rcases h0 with h | h
    · exact .inl (by rw [h]; rfl)
    · exact .inr (by rw [h]; rfl)
  have hhigh : (t (.sram (p.place j c + 1))).toNat = 0
      ∨ (t (.sram (p.place j c + 1))).toNat = 60 := by
    rcases h1 with h | h
    · exact .inl (by rw [h]; rfl)
    · exact .inr (by rw [h]; rfl)
  have hhit : (t (.sram (p.place j c))).toNat = 0
      ∨ (t (.sram (p.place j c + 1))).toNat = 0 := by
    rcases ha with rfl | rfl
    · exact .inl (by rw [hgone]; rfl)
    · exact .inr (by rw [hgone]; rfl)
  exact ⟨by omega, by omega, by omega⟩

variable (kind) in
/-- A row with one element left ends with it. -/
theorem rowValue_single (hexact : FloatArith.Exact) {x : UInt16} {r : Nat}
    (hc : c < p.cols.toNat) (hrow : ∀ k < p.cols.toNat, p.srcRow t r k = singleRow c x k)
    (hx : NonNegative (kind.term (fp16ToFp32 x))) :
    (p.rowValue UInt32 kind t r).value = kind.term (fp16ToFp32 x) := by
  have hfold : p.rowValue UInt32 kind t r
      = kind.fold UInt32 (singleRow c x) (p.cols.toNat - 1) :=
    ReduceKind.fold_congr fun k hk => hrow k (by omega)
  rw [hfold, fold_single hexact hx, if_pos (by omega)]

variable (kind) in
/-- A row of zeros ends with zero, at index 0. -/
theorem rowValue_zero (hexact : FloatArith.Exact) {r : Nat} (hcols : 0 < p.cols.toNat)
    (hrow : ∀ k < p.cols.toNat, p.srcRow t r k = 0) :
    (p.rowValue UInt32 kind t r).value = 0
      ∧ (kind = .ARGMAX → (p.rowValue UInt32 kind t r).index = 0) := by
  have hterm : kind.term (fp16ToFp32 0) = 0 := by
    rw [fp16ToFp32_zero, kind.term_zero hexact]
  constructor
  · have hvalue := rowValue_single kind hexact (x := 0) (c := 0) hcols
      (fun k hk => by rw [hrow k hk, singleRow, ite_self])
      (by rw [hterm]; exact nonNegative_zero)
    rw [hvalue, hterm]
  · rintro rfl
    have hfold : p.rowValue UInt32 .ARGMAX t r
        = ReduceKind.ARGMAX.fold UInt32 (fun _ => 0) (p.cols.toNat - 1) :=
      ReduceKind.fold_congr fun k hk => hrow k (by omega)
    rw [hfold, fold_constant (by decide +kernel)]

/-- Before row `j`, the rows are zero and so is what they write. -/
theorem Erased.next (hexact : FloatArith.Exact) (hres : p.Resident)
    (hargmax : kind = .ARGMAX → p.kind = ReduceKind.ARGMAX.toU32)
    (hcols : 0 < p.cols.toNat) (hn : n < p.rows.toNat) (hnj : n < j) (hhit : p.Hits kind i a)
    (he : Erased (marked d p (p.place j c)) a i n t) :
    ∃ t', reduceCell UInt32 p kind n t = .ok t'
      ∧ Erased (marked d p (p.place j c)) a i (n + 1) t' := by
  have hle := Nat.mul_le_mul_right p.cols.toNat (show n + 1 ≤ j from hnj)
  rw [Nat.succ_mul] at hle
  obtain ⟨hvalue, hindex⟩ := rowValue_zero kind hexact hcols
    fun k hk => he.srcRow_zero (r := n) (k := k) (by omega)
  refine ⟨_, reduceCell_eq hres hargmax hcols hn, fun b => ?_, fun hi => ?_⟩
  · rcases (writeRow_zero hvalue hindex b).2 with h | h
    · exact .inl h
    · rw [h]
      exact he.bytes b
  · rcases Nat.lt_or_eq_of_le (show i ≤ n by omega) with hlt | rfl
    · rcases (writeRow_zero hvalue hindex a).2 with h | h
      · exact h
      · rw [h]
        exact he.gone hlt
    · exact (writeRow_zero hvalue hindex a).1 hhit

/-- **A result that lands on a later row shows**: no byte row `i` writes is
one of row `j`. -/
theorem not_hits_of_correct (hexact : FloatArith.Exact) (hacc : p.Accepted kind)
    (hkind : p.kind = kind.toU32) (hres : p.Resident) (hslot : SlotInDdr (.reduce d p))
    (hcorrect : p.Correct kind d) (hij : i < j) (hj : j < p.rows.toNat)
    (hlo : p.srcAddr.toNat + j * p.cols.toNat * 2 ≤ a)
    (hhi : a < p.srcAddr.toNat + j * p.cols.toNat * 2 + p.cols.toNat * 2) :
    ¬ p.Hits kind i a := by
  intro hhit
  obtain ⟨-, hcols⟩ := hacc.pos
  have hargmax : kind = .ARGMAX → p.kind = ReduceKind.ARGMAX.toU32 := by
    rintro rfl
    exact hkind
  have hapart := apart_of_correct hacc hkind hres hslot hcorrect
  -- the element of row `j` the byte belongs to
  obtain ⟨c, hc, ha⟩ : ∃ c < p.cols.toNat, a = p.place j c ∨ a = p.place j c + 1 :=
    ⟨(a - (p.srcAddr.toNat + j * p.cols.toNat * 2)) / 2, by omega,
      by unfold ReduceParam.place; omega⟩
  have hrowj : ∀ {t : CModel} {n : Nat}, Erased (marked d p (p.place j c)) a i n t →
      ∀ k < p.cols.toNat, p.srcRow t j k = singleRow c (p.srcRow t j c) k := by
    intro t n he k _
    rw [singleRow]
    by_cases hkc : k = c
    · rw [if_pos hkc, hkc]
    · rw [if_neg hkc]
      exact he.srcRow_zero (by omega)
  have hstart : Erased (marked d p (p.place j c)) a i 0 (marked d p (p.place j c)) :=
    ⟨fun _ => .inr rfl, fun h => absurd h (Nat.not_lt_zero i)⟩
  obtain ⟨s', hend, hw⟩ := correct_run hacc hkind hslot hcorrect
    (s := marked d p (p.place j c)) (ownDesc_sramWith (.reduce d p) _)
    (fun n t => (n ≤ j → Erased (marked d p (p.place j c)) a i n t)
      ∧ (j < n → elemAt t p.dstAddr.toNat j ≠ fp32ToFp16 (kind.term (fp16ToFp32 0x3C01))))
    ⟨fun _ => hstart, fun h => absurd h (Nat.not_lt_zero j)⟩
    (by
      intro n hn t ⟨hbefore, hafter⟩
      rcases Nat.lt_trichotomy n j with hlt | rfl | hgt
      · obtain ⟨t', ht', he⟩ := (hbefore hlt.le).next hexact hres hargmax hcols hn hlt hhit
        exact ⟨t', ht', fun _ => he, fun h => absurd h (by omega)⟩
      · refine ⟨_, reduceCell_eq hres hargmax hcols hn, fun h => absurd h (by omega),
          fun _ => ?_⟩
        have he := hbefore (Nat.le_refl n)
        obtain ⟨hx, hne⟩ := (he.spoiled hij ha).visible hexact kind
        rw [elemAt_writeRow hapart hn, rowValue_single kind hexact hc (hrowj he) hx]
        exact hne
      · refine ⟨_, reduceCell_eq hres hargmax hcols hn, fun h => absurd h (by omega),
          fun _ => ?_⟩
        rw [elemAt_writeRow_ne hapart hn hgt]
        exact hafter hgt)
  have hmark : p.srcRow (marked d p (p.place j c)) j c = 0x3C01 := by
    apply UInt16.toNat_inj.mp
    rw [ReduceParam.srcRow, elemAt, toNat_loadU16]
    show (if p.place j c = p.place j c then (0x01 : UInt8) else _).toNat
      + 256 * (if p.place j c + 1 = p.place j c then (0x01 : UInt8)
        else if p.place j c + 1 = p.place j c + 1 then 0x3C else 0).toNat = _
    rw [if_pos rfl, if_neg (by omega), if_pos rfl]
    rfl
  have hvalue := hw.value j hj
  rw [rowValue_single kind hexact hc (hrowj hstart) (by rw [hmark]; exact nonNegative_next hexact kind),
    hmark] at hvalue
  exact hend.2 hj hvalue

end Marked

/-- **Only clear arrays are always reduced correctly.** -/
theorem clear_of_correct (hexact : FloatArith.Exact) (hacc : p.Accepted kind)
    (hkind : p.kind = kind.toU32) (hres : p.Resident) (hslot : SlotInDdr (.reduce d p))
    (hcorrect : p.Correct kind d) : p.Clear := by
  obtain ⟨-, hcols⟩ := hacc.pos
  refine ⟨fun i j hij hj => ?_, fun hk i j hij hj => ?_, fun hk => ?_⟩
  · by_contra hapart
    obtain ⟨a, hlo, hhi, hd, hd'⟩ := exists_shared hcols (by decide) hapart
    exact not_hits_of_correct hexact hacc hkind hres hslot hcorrect hij hj hlo hhi
      (.inl ⟨hd, by omega⟩)
  · by_contra hapart
    obtain ⟨a, hlo, hhi, hd, hd'⟩ := exists_shared hcols (by decide) hapart
    exact not_hits_of_correct hexact hacc hkind hres hslot hcorrect hij hj hlo hhi
      (.inr ⟨ReduceKind.toU32_inj (hkind.symm.trans hk), hd, by omega⟩)
  · exact apart_of_correct hacc hkind hres hslot hcorrect
      (ReduceKind.toU32_inj (hkind.symm.trans hk))

/-- **REDUCE computes on its inputs exactly for clear arrays**: a kind and a
descriptor in DDR whose arrays lie in SRAM leave the row folds of the initial
`src`, and nothing else, on every memory, if and only if the checks refuse the
descriptor or the arrays are clear. -/
theorem execReduce_correct_iff (hexact : FloatArith.Exact) (hkind : p.kind = kind.toU32)
    (hres : p.Resident) (hslot : SlotInDdr (.reduce d p)) :
    p.Correct kind d ↔ (p.Accepted kind → p.Clear) := by
  constructor
  · intro hcorrect hacc
    exact clear_of_correct hexact hacc hkind hres hslot hcorrect
  · intro h s s' hown hexec
    rw [execReduce_own hslot hown] at hexec
    have hacc := accepted_of_ok hkind hexec
    obtain ⟨t, ht, hw⟩ := reduce_clear (F := UInt32) (s := s) hres (h hacc) hkind
      hacc.rows hacc.cols hacc.idx
    rw [ht] at hexec
    cases hexec
    exact hw

end Overlap

/-! ## Two placements -/

theorem exactArith_exact : @FloatArith.Exact exactArith :=
  @FloatArith.Exact.mk exactArith (fun _ _ => if_pos rfl)
    (fun a _ => by
      show (if a = 0 then 0 else if (0 : UInt32) = 0 then a else _) = a
      by_cases h : a = 0
      · rw [if_pos h, h]
      · rw [if_neg h, if_pos rfl])
    (by decide) (by decide) (by decide) (by decide)

/-- Row maxima in place: each lands on a row that has been read. -/
def maxInPlace : ReduceParam :=
  { kind := 0, srcAddr := 0x10000000, dstAddr := 0x10000000, idxAddr := 0
    rows := 2, cols := 2 }

theorem execReduce_correct_iff_inPlace :
    @ReduceParam.Correct exactArith maxInPlace .MAX 0x40000000 := by
  let _ := exactArith
  have hres : maxInPlace.Resident :=
    ⟨by decide, by decide, fun h => absurd h (by decide)⟩
  refine (execReduce_correct_iff exactArith_exact rfl hres
    (fun _ => ⟨by decide, by decide⟩)).mpr fun _ => ?_
  refine ⟨fun i j hij hj => ?_, fun h => absurd h (by decide), fun h => absurd h (by decide)⟩
  have hj : j < 2 := hj
  show 268435456 + j * 2 * 2 + 2 * 2 ≤ 268435456 + i * 2
    ∨ 268435456 + i * 2 + 1 * 2 ≤ 268435456 + j * 2 * 2
  omega

/-- Row maxima of one column, one element further: the first lands on the
second row. -/
def maxShifted : ReduceParam :=
  { kind := 0, srcAddr := 0x10000000, dstAddr := 0x10000002, idxAddr := 0
    rows := 2, cols := 1 }

/-- No assertion fails, and the second maximum is that of an erased row. -/
theorem reduce_erases_row :
    SlotInDdr (.reduce 0x40000000 maxShifted) ∧ maxShifted.Resident
      ∧ maxShifted.Accepted .MAX
      ∧ maxShifted.srcRow (marked 0x40000000 maxShifted 0x10000002) 1 0 = 0x3C01
      ∧ (@execReduce UInt32 (@binary32Ops exactArith) 0x40000000
          (marked 0x40000000 maxShifted 0x10000002)).toOption.map
            (fun s => elemAt s maxShifted.dstAddr.toNat 1) = some 0
      ∧ ¬ @ReduceParam.Correct exactArith maxShifted .MAX 0x40000000 := by
  have hres : maxShifted.Resident :=
    ⟨by decide, by decide, fun h => absurd h (by decide)⟩
  have hslot : SlotInDdr (.reduce 0x40000000 maxShifted) :=
    fun _ => ⟨by decide, by decide⟩
  have hacc : maxShifted.Accepted .MAX := ⟨by decide, by decide, by decide⟩
  refine ⟨hslot, hres, hacc, by decide +kernel, by decide +kernel, fun hcorrect => ?_⟩
  have hclear := @clear_of_correct _ _ _ exactArith exactArith_exact hacc rfl hres hslot
    hcorrect
  have hapart := hclear.value 0 1 (by decide) (by decide)
  revert hapart
  decide

end EclipseNpu.Runtime

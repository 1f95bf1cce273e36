import EclipseNpu.Runtime.Easm
import EclipseNpu.Runtime.Packed

/-!
# Runtime — Kernels

What the DMA, ELEMENTWISE, ACT and MATMUL leave in memory when their operands are
packed arrays in range: no assertion fires, every element of the destination
gets its value, and nothing else changes.
-/

namespace EclipseNpu.Runtime

open EclipseNpu.Lib

/-- Two arrays share no byte. -/
def ArraysApart (base n base' n' : Nat) : Prop :=
  base + n * 2 ≤ base' ∨ base' + n' * 2 ≤ base

instance (base n base' n' : Nat) : Decidable (ArraysApart base n base' n') :=
  inferInstanceAs (Decidable (_ ∨ _))

theorem ArraysApart.symm {base n base' n' : Nat}
    (h : ArraysApart base n base' n') : ArraysApart base' n' base n := Or.symm h

/-- An array apart from the changed part is unchanged. -/
theorem AgreeOff.elemAt_apart {s t : CModel} {base n m b k i : Nat}
    (h : AgreeOff s t base n) (hn : n ≤ m) (hap : ArraysApart b k base m)
    (hi : i < k) : elemAt t b i = elemAt s b i :=
  h.elemAt_eq (by unfold ArraysApart at hap; omega)

/-! ## DMA -/

/-- The row of `cols` elements at a DDR address. -/
theorem ddrRow_of_inDdr {addr : UInt32} {cols : Nat} (h0 : 0 < cols)
    (h : InDdr addr.toNat cols) : DdrRow addr (cols * 2) := by
  obtain ⟨hlo, hhi⟩ := h
  exact ⟨hlo, by omega, .inr hhi⟩

/-- Row `i` of a packed array lies in it. -/
theorem row_le {i rows : Nat} (cols : Nat) (hi : i < rows) :
    i * (cols * 2) + cols * 2 ≤ rows * cols * 2 := by
  have h := Nat.mul_le_mul_right (cols * 2) (show i + 1 ≤ rows from hi)
  rw [Nat.add_mul, Nat.one_mul, ← Nat.mul_assoc rows] at h
  exact h

/-- The address of row `i` of a packed array. -/
theorem toNat_packedRow (base : UInt32) {stride : UInt32} {i rows cols : Nat}
    (hstride : stride.toNat = cols * 2) (hi : i < rows)
    (hrows : rows < 4294967296)
    (hend : base.toNat + rows * cols * 2 ≤ 4294967295) :
    (base + stride * UInt32.ofNat i).toNat = base.toNat + i * (cols * 2) := by
  have hrow := row_le cols hi
  rw [toNat_row (toNat_ofNat_small (by omega)) (by rw [hstride]; omega), hstride]

/-- **DMA_LOAD into a packed tile**: row `i` of the tile is the row at
`src i`. -/
theorem dmaLoad_packed {p : DMAParam} {s : CModel} (src : Nat → Nat)
    (halign : (p.sramAddr % 16 == 0 && p.ddrAddr % 16 == 0) = true)
    (hcols : 0 < p.cols.toNat) (hstride : p.dstStride.toNat = p.cols.toNat * 2)
    (hdst : InSram p.sramAddr.toNat (p.rows.toNat * p.cols.toNat))
    (hsrc : ∀ i < p.rows.toNat, (p.loadSrc i).toNat = src i
      ∧ InDdr (src i) p.cols.toNat) :
    ∃ s', dmaLoad p s = .ok s'
      ∧ (∀ i < p.rows.toNat, ∀ j < p.cols.toNat,
          elemAt s' p.sramAddr.toNat (i * p.cols.toNat + j) = ddrElem s (src i) j)
      ∧ AgreeOff s s' p.sramAddr.toNat (p.rows.toNat * p.cols.toNat) := by
  obtain ⟨hlo, hhi⟩ := hdst
  have hend : p.sramAddr.toNat + p.rows.toNat * p.cols.toNat * 2 ≤ 4294967295 := by
    rw [sramEnd_eq] at hhi
    omega
  have hdstAt : ∀ i < p.rows.toNat, (p.loadDst i).toNat
      = p.sramAddr.toNat + i * (p.cols.toNat * 2) := fun i hi =>
    toNat_packedRow _ hstride hi p.rows.toNat_lt hend
  obtain ⟨s', hs', hval, hoff⟩ := forLoop_spec (n := p.rows.toNat)
    (f := dmaLoadRow p) (s := s)
    (fun i t => (∀ k < i, ∀ j < p.cols.toNat * 2,
        t (.sram (p.sramAddr.toNat + k * (p.cols.toNat * 2) + j))
          = s (.ddr (src k + j)))
      ∧ AgreeOff s t p.sramAddr.toNat (i * p.cols.toNat))
    ⟨fun k hk => by omega, fun _ _ => rfl⟩
    (fun i hi t ⟨hval, hoff⟩ => by
      have hrow := row_le p.cols.toNat hi
      have hd := hdstAt i hi
      obtain ⟨hs, hsin⟩ := hsrc i hi
      have hok : dmaLoadRow p i t = .ok (t.copyToSram (p.loadDst i).toNat
          (p.loadSrc i).toNat (p.cols.toNat * 2)) := dmaLoadRow_ok_iff.mpr
        ⟨⟨ddrRow_of_inDdr hcols (hs ▸ hsin), by omega, by omega, .inr (by omega)⟩, rfl⟩
      refine ⟨_, hok, fun k hk j hj => ?_, fun l hl => ?_⟩
      · rw [hd, hs]
        rcases Nat.lt_succ_iff_lt_or_eq.mp hk with hlt | rfl
        · have hbefore := row_le p.cols.toNat hlt
          rw [Nat.mul_assoc i] at hbefore
          rw [copyToSram_out (by omega), hval k hlt j hj]
        · rw [copyToSram_in hj]
          exact hoff _ nofun
      · have hrow' : (i + 1) * p.cols.toNat * 2
            = i * (p.cols.toNat * 2) + p.cols.toNat * 2 := by
          rw [Nat.mul_assoc, Nat.add_mul, Nat.one_mul]
        cases l with
        | ddr a => exact hoff _ nofun
        | sram a =>
            have ha := hl a rfl
            rw [hd, copyToSram_out (by omega)]
            refine hoff _ fun b hb => ?_
            cases hb
            rw [Nat.mul_assoc]
            omega)
  refine ⟨s', ?_, fun i hi j hj => ?_, hoff⟩
  · rw [dmaLoad, halign, assert_true, ok_bind]
    exact hs'
  · have hpos : p.sramAddr.toNat + (i * p.cols.toNat + j) * 2
        = p.sramAddr.toNat + i * (p.cols.toNat * 2) + j * 2 := by
      rw [Nat.add_mul, Nat.mul_assoc, Nat.add_assoc]
    rw [elemAt, hpos]
    refine loadU16_congr ?_ ?_
    · exact hval i hi (j * 2) (by omega)
    · exact hval i hi (j * 2 + 1) (by omega)

/-- **DMA_STORE of a packed tile** to a packed tensor. -/
theorem dmaStore_packed {p : DMAParam} {s : CModel}
    (halign : (p.sramAddr % 16 == 0 && p.ddrAddr % 16 == 0) = true)
    (hcols : 0 < p.cols.toNat) (hsrcStride : p.srcStride.toNat = p.cols.toNat * 2)
    (hdstStride : p.dstStride.toNat = p.cols.toNat * 2)
    (hsrc : InSram p.sramAddr.toNat (p.rows.toNat * p.cols.toNat))
    (hdst : InDdr p.ddrAddr.toNat (p.rows.toNat * p.cols.toNat)) :
    ∃ s', dmaStore p s = .ok s'
      ∧ (∀ i < p.rows.toNat, ∀ j < p.cols.toNat,
          ddrElem s' p.ddrAddr.toNat (i * p.cols.toNat + j)
            = elemAt s p.sramAddr.toNat (i * p.cols.toNat + j)) := by
  obtain ⟨hlo, hhi⟩ := hsrc
  obtain ⟨hlo', hhi'⟩ := hdst
  have hend : p.sramAddr.toNat + p.rows.toNat * p.cols.toNat * 2 ≤ 4294967295 := by
    rw [sramEnd_eq] at hhi
    omega
  have hend' : p.ddrAddr.toNat + p.rows.toNat * p.cols.toNat * 2 ≤ 4294967295 := by
    rw [ddrEnd_eq] at hhi'
    omega
  obtain ⟨s', hs', hval, -⟩ := forLoop_spec (n := p.rows.toNat)
    (f := dmaStoreRow p) (s := s)
    (fun i t => (∀ k < i, ∀ j < p.cols.toNat * 2,
        t (.ddr (p.ddrAddr.toNat + k * (p.cols.toNat * 2) + j))
          = s (.sram (p.sramAddr.toNat + k * (p.cols.toNat * 2) + j)))
      ∧ ∀ a, t (.sram a) = s (.sram a))
    ⟨fun k hk => by omega, fun _ => rfl⟩
    (fun i hi t ⟨hval, hsram⟩ => by
      have hrow := row_le p.cols.toNat hi
      have hs := toNat_packedRow _ hsrcStride hi p.rows.toNat_lt hend
      have hd := toNat_packedRow _ hdstStride hi p.rows.toNat_lt hend'
      change (p.storeSrc i).toNat = _ at hs
      change (p.storeDst i).toNat = _ at hd
      have hok : dmaStoreRow p i t = .ok (t.copyToDdr (p.storeDst i).toNat
          (p.storeSrc i).toNat (p.cols.toNat * 2)) := dmaStoreRow_ok_iff.mpr
        ⟨⟨⟨by omega, by omega, .inr (by omega)⟩, by omega, by omega,
          .inr (by omega)⟩, rfl⟩
      refine ⟨_, hok, fun k hk j hj => ?_, fun a => hsram a⟩
      rw [hd, hs]
      rcases Nat.lt_succ_iff_lt_or_eq.mp hk with hlt | rfl
      · have hbefore := row_le p.cols.toNat hlt
        rw [Nat.mul_assoc i] at hbefore
        rw [copyToDdr_out (by omega), hval k hlt j hj]
      · rw [copyToDdr_in hj]
        exact hsram _)
  refine ⟨s', ?_, fun i hi j hj => ?_⟩
  · rw [dmaStore, halign, assert_true, ok_bind]
    exact hs'
  · have hpos : ∀ base, base + (i * p.cols.toNat + j) * 2
        = base + i * (p.cols.toNat * 2) + j * 2 := fun base => by
      rw [Nat.add_mul, Nat.mul_assoc, Nat.add_assoc]
    rw [elemAt, ddrElem, hpos, hpos]
    refine loadU16_congr ?_ ?_
    · exact hval i hi (j * 2) (by omega)
    · exact hval i hi (j * 2 + 1) (by omega)

section Kernels

variable {F : Type} [Fp32 F]

/-! ## ELEMENTWISE -/

/-- **ELEMENTWISE element by element**: `dst[i] = lhs[i] op rhs[idx i]`, where
`idx` is the flat rhs index of the descriptor. The destination may be the lhs. -/
theorem elementwise_cells {d : EwiseParam} (op : EwiseOp) {s : CModel}
    {n : Nat} (idx : Nat → Nat) (hcols : d.cols ≠ 0) (hblk : d.rhsBlk ≠ 0)
    (hdvd : d.cols % d.rhsBlk = 0) (hn : (d.rows * d.cols).toNat = n)
    (hidx : ∀ i < n, (d.rhsIndex (UInt32.ofNat i)).toNat = idx i)
    (hdst : InSram d.dstAddr.toNat n) (hlhs : InSram d.lhsAddr.toNat n)
    (hrhs : ∀ i < n, InSram (d.rhsAddr.toNat + idx i * 2) 1)
    (hdl : d.lhsAddr = d.dstAddr ∨ ArraysApart d.lhsAddr.toNat n d.dstAddr.toNat n)
    (hdr : ∀ i < n, ArraysApart (d.rhsAddr.toNat + idx i * 2) 1 d.dstAddr.toNat n)
    (hdiv : op = .div → ∀ i < n, Fp32.eq
      (Fp32.fp16ToFp32 (elemAt s d.rhsAddr.toNat (idx i)) : F) Fp32.zero = false) :
    ∃ s', elementwise F d op s = .ok s'
      ∧ (∀ i < n, elemAt s' d.dstAddr.toNat i = Fp32.fp32ToFp16 (op.eval F
          (Fp32.fp16ToFp32 (elemAt s d.lhsAddr.toNat i))
          (Fp32.fp16ToFp32 (elemAt s d.rhsAddr.toNat (idx i)))))
      ∧ AgreeOff s s' d.dstAddr.toNat n := by
  have hloop : elementwise F d op s = forLoop n (ewiseCell F d op) s := by
    rw [elementwise, show (d.cols != 0 && d.rhsBlk != 0) = true by simp [hcols, hblk],
      assert_true, ok_bind, show (d.cols % d.rhsBlk == 0) = true by simp [hdvd],
      assert_true, ok_bind, hn]
  rw [hloop]
  refine forLoop_cells fun i hi t hoff => ?_
  have hlt : d.dstAddr.toNat + n * 2 ≤ sramEnd := hdst.2
  have hnat : (UInt32.ofNat i).toNat = i := by
    rw [UInt32.toNat_ofNat', Nat.mod_eq_of_lt (by rw [sramEnd_eq] at hlt; omega)]
  have haddr : ∀ {base : UInt32}, InSram base.toNat n →
      (base + UInt32.ofNat i * DTYPE_SIZE).toNat = base.toNat + i * 2 :=
    fun hin => toNat_elem hnat (by have := hin.2; rw [sramEnd_eq] at this; omega)
  have hreadL := readFP16_elem (F := F) (s := t) (haddr hlhs) hlhs hi
  -- in place, element `i` is read before it is written
  have hsame : elemAt t d.lhsAddr.toNat i = elemAt s d.lhsAddr.toNat i := by
    rcases hdl with hin | hap
    · rw [hin]
      exact hoff.elemAt_eq (.inr (Nat.le_refl _))
    · exact hoff.elemAt_apart (Nat.le_of_lt hi) hap hi
  rw [hsame] at hreadL
  obtain ⟨hrlo, hrhi⟩ := hrhs i hi
  have hraddr : (d.rhsAddr + d.rhsIndex (UInt32.ofNat i) * DTYPE_SIZE).toNat
      = d.rhsAddr.toNat + idx i * 2 :=
    toNat_elem (hidx i hi) (by rw [sramEnd_eq] at hrhi; omega)
  have hreadR : readFP16 F (d.rhsAddr + d.rhsIndex (UInt32.ofNat i) * DTYPE_SIZE) t
      = .ok (Fp32.fp16ToFp32 (elemAt s d.rhsAddr.toNat (idx i))) := by
    refine (readFP16_ok_iff F).mpr ⟨⟨by omega, by omega⟩, ?_⟩
    have hap := hdr i hi
    unfold ArraysApart at hap
    rw [hraddr, ← hoff.elemAt_eq (b := d.rhsAddr.toNat) (i := idx i) (by omega)]
    rfl
  have hval : ewiseValue F d op (UInt32.ofNat i) t = .ok (op.eval F
      (Fp32.fp16ToFp32 (elemAt s d.lhsAddr.toNat i))
      (Fp32.fp16ToFp32 (elemAt s d.rhsAddr.toNat (idx i)))) := by
    rw [ewiseValue, hreadL, ok_bind, hreadR, ok_bind]
    by_cases hop : op = .div
    · rw [if_pos hop, hdiv hop i hi]
      rfl
    · rw [if_neg hop]
      rfl
  rw [ewiseCell, hval, ok_bind]
  exact writeFP16_elem (haddr hdst) hdst hi

/-- **ELEMENTWISE on packed arrays** apart from each other. -/
theorem elementwise_packed {d : EwiseParam} (op : EwiseOp) {s : CModel}
    {n m : Nat} (idx : Nat → Nat) (hcols : d.cols ≠ 0) (hblk : d.rhsBlk ≠ 0)
    (hdvd : d.cols % d.rhsBlk = 0) (hn : (d.rows * d.cols).toNat = n)
    (hidx : ∀ i < n, (d.rhsIndex (UInt32.ofNat i)).toNat = idx i ∧ idx i < m)
    (hdst : InSram d.dstAddr.toNat n) (hlhs : InSram d.lhsAddr.toNat n)
    (hrhs : InSram d.rhsAddr.toNat m)
    (hdl : ArraysApart d.lhsAddr.toNat n d.dstAddr.toNat n)
    (hdr : ArraysApart d.rhsAddr.toNat m d.dstAddr.toNat n)
    (hdiv : op = .div → ∀ i < n, Fp32.eq
      (Fp32.fp16ToFp32 (elemAt s d.rhsAddr.toNat (idx i)) : F) Fp32.zero = false) :
    ∃ s', elementwise F d op s = .ok s'
      ∧ (∀ i < n, elemAt s' d.dstAddr.toNat i = Fp32.fp32ToFp16 (op.eval F
          (Fp32.fp16ToFp32 (elemAt s d.lhsAddr.toNat i))
          (Fp32.fp16ToFp32 (elemAt s d.rhsAddr.toNat (idx i)))))
      ∧ AgreeOff s s' d.dstAddr.toNat n := by
  obtain ⟨hlo, hhi⟩ := hrhs
  refine elementwise_cells op idx hcols hblk hdvd hn (fun i hi => (hidx i hi).1) hdst hlhs
    (fun i hi => ?_) (.inr hdl) (fun i hi => ?_) hdiv
  · have him := (hidx i hi).2
    exact ⟨by omega, by omega⟩
  · have him := (hidx i hi).2
    unfold ArraysApart at hdr ⊢
    omega

/-! ## ACT -/

/-- **ACT on packed arrays** apart from each other. -/
theorem act_packed {d : ActParam} {kind : ActKind} {s : CModel} {n : Nat}
    (hkind : d.kind = kind.toU32) (hn : d.n.toNat = n)
    (hdst : InSram d.dstAddr.toNat n) (hsrc : InSram d.srcAddr.toNat n)
    (hap : ArraysApart d.srcAddr.toNat n d.dstAddr.toNat n) :
    ∃ s', act F d s = .ok s'
      ∧ (∀ i < n, elemAt s' d.dstAddr.toNat i = Fp32.fp32ToFp16 (kind.eval F
          (Fp32.fp16ToFp32 (elemAt s d.srcAddr.toNat i))))
      ∧ AgreeOff s s' d.dstAddr.toNat n := by
  rw [act, hkind, ActKind.ofU32?_toU32]
  dsimp only
  rw [hn]
  refine forLoop_cells fun i hi t hoff => ?_
  have hnat : (UInt32.ofNat i).toNat = i := toNat_ofNat_lt (b := d.n) (by omega)
  have haddr : ∀ {base : UInt32}, InSram base.toNat n →
      (base + UInt32.ofNat i * DTYPE_SIZE).toNat = base.toNat + i * 2 :=
    fun hin => toNat_elem hnat (by have := hin.2; rw [sramEnd_eq] at this; omega)
  have hread := readFP16_elem (F := F) (s := t) (haddr hsrc) hsrc hi
  rw [hoff.elemAt_apart (Nat.le_of_lt hi) hap hi] at hread
  rw [actCell, hread, ok_bind]
  exact writeFP16_elem (haddr hdst) hdst hi

/-! ## MATMUL -/

variable (F) in
/-- The left-to-right sum of `count` products, from zero. -/
def dotProduct (a b : Nat → UInt16) (count : Nat) : F :=
  (List.range count).foldl (fun acc k =>
    Fp32.add acc (Fp32.mul (Fp32.fp16ToFp32 (a k)) (Fp32.fp16ToFp32 (b k))))
    Fp32.zero

theorem dotProduct_congr {a b a' b' : Nat → UInt16} {count : Nat}
    (ha : ∀ k < count, a k = a' k) (hb : ∀ k < count, b k = b' k) :
    dotProduct F a b count = dotProduct F a' b' count := by
  induction count with
  | zero => rfl
  | succ count ih =>
      have ih := ih (fun k hk => ha k (by omega)) (fun k hk => hb k (by omega))
      unfold dotProduct at ih ⊢
      rw [List.range_succ, List.foldl_append, List.foldl_append, ih]
      simp only [List.foldl_cons, List.foldl_nil]
      rw [ha count (by omega), hb count (by omega)]

/-- The array sizes of a matmul without transposes, and where they lie. -/
structure MatmulParam.Packed (d : MatmulParam) : Prop where
  transA : d.transA = false
  transB : d.transB = false
  dst : InSram d.dstAddr.toNat (d.M.toNat * d.N.toNat)
  lhs : InSram d.lhsAddr.toNat (d.M.toNat * d.K.toNat)
  rhs : InSram d.rhsAddr.toNat (d.K.toNat * d.N.toNat)
  dstLhs : ArraysApart d.lhsAddr.toNat (d.M.toNat * d.K.toNat)
    d.dstAddr.toNat (d.M.toNat * d.N.toNat)
  dstRhs : ArraysApart d.rhsAddr.toNat (d.K.toNat * d.N.toNat)
    d.dstAddr.toNat (d.M.toNat * d.N.toNat)
  lhsRhs : ArraysApart d.lhsAddr.toNat (d.M.toNat * d.K.toNat)
    d.rhsAddr.toNat (d.K.toNat * d.N.toNat)

/-- The end of a packed array does not wrap. -/
theorem toNat_arrayEnd {base a b : UInt32}
    (h : InSram base.toNat (a.toNat * b.toNat)) :
    (base + a * b * DTYPE_SIZE).toNat = base.toNat + a.toNat * b.toNat * 2 := by
  have hlt := h.2
  rw [sramEnd_eq] at hlt
  refine toNat_elem ?_ (by omega)
  rw [UInt32.toNat_mul, Nat.mod_eq_of_lt (by omega)]

/-- The address of element `(r, c)` of a packed array. -/
theorem toNat_arrayElem {base cols r c : UInt32} {rows : Nat}
    (h : InSram base.toNat (rows * cols.toNat)) (hr : r.toNat < rows)
    (hc : c.toNat < cols.toNat) :
    (base + (r * cols + c) * DTYPE_SIZE).toNat
      = base.toNat + (r.toNat * cols.toNat + c.toNat) * 2 := by
  have hlt := h.2
  have hflat := flat_lt hr hc
  rw [sramEnd_eq] at hlt
  exact toNat_elem (toNat_mulAdd (by omega)) (by omega)

/-- The three arrays of a matmul lie in `sram_`. -/
structure MatmulParam.Resident (d : MatmulParam) : Prop where
  dst : InSram d.dstAddr.toNat (d.M.toNat * d.N.toNat)
  lhs : InSram d.lhsAddr.toNat (d.M.toNat * d.K.toNat)
  rhs : InSram d.rhsAddr.toNat (d.K.toNat * d.N.toNat)

/-- Pairwise they share no byte. -/
structure MatmulParam.Apart (d : MatmulParam) : Prop where
  dstLhs : ArraysApart d.lhsAddr.toNat (d.M.toNat * d.K.toNat)
    d.dstAddr.toNat (d.M.toNat * d.N.toNat)
  dstRhs : ArraysApart d.rhsAddr.toNat (d.K.toNat * d.N.toNat)
    d.dstAddr.toNat (d.M.toNat * d.N.toNat)
  lhsRhs : ArraysApart d.lhsAddr.toNat (d.M.toNat * d.K.toNat)
    d.rhsAddr.toNat (d.K.toNat * d.N.toNat)

theorem MatmulParam.Packed.resident {d : MatmulParam} (h : d.Packed) : d.Resident :=
  ⟨h.dst, h.lhs, h.rhs⟩

theorem MatmulParam.Packed.apart {d : MatmulParam} (h : d.Packed) : d.Apart :=
  ⟨h.dstLhs, h.dstRhs, h.lhsRhs⟩

/-- **The overlap assertion** on resident arrays: their ends do not wrap, so
it says that they are apart. -/
theorem MatmulParam.Resident.noOverlap_iff {d : MatmulParam} (h : d.Resident) :
    d.noOverlap = true ↔ d.Apart := by
  have hdst := toNat_arrayEnd h.dst
  have hlhs := toNat_arrayEnd h.lhs
  have hrhs := toNat_arrayEnd h.rhs
  simp only [MatmulParam.noOverlap, MatmulParam.dstEnd, MatmulParam.lhsEnd,
    MatmulParam.rhsEnd, Bool.and_eq_true, Bool.or_eq_true, decide_eq_true_eq,
    ge_iff_le, UInt32.le_iff_toNat_le, hdst, hlhs, hrhs]
  constructor
  · rintro ⟨⟨h1, h2⟩, h3⟩
    refine ⟨?_, ?_, ?_⟩ <;> unfold ArraysApart <;> omega
  · rintro ⟨h1, h2, h3⟩
    unfold ArraysApart at h1 h2 h3
    omega

/-- The flat index of `op(lhs)[m, k]`: a transposed lhs is laid out
`[K, M]`. -/
def MatmulParam.lhsFlat (d : MatmulParam) (m k : Nat) : Nat :=
  if d.transA then k * d.M.toNat + m else m * d.K.toNat + k

/-- The flat index of `op(rhs)[k, n]`: a transposed rhs is laid out
`[N, K]`. -/
def MatmulParam.rhsFlat (d : MatmulParam) (k n : Nat) : Nat :=
  if d.transB then n * d.K.toNat + k else k * d.N.toNat + n

theorem MatmulParam.lhsFlat_lt {d : MatmulParam} {m k : Nat} (hm : m < d.M.toNat)
    (hk : k < d.K.toNat) : d.lhsFlat m k < d.M.toNat * d.K.toNat := by
  unfold MatmulParam.lhsFlat
  split
  · rw [Nat.mul_comm d.M.toNat]
    exact flat_lt hk hm
  · exact flat_lt hm hk

theorem MatmulParam.rhsFlat_lt {d : MatmulParam} {k n : Nat} (hk : k < d.K.toNat)
    (hn : n < d.N.toNat) : d.rhsFlat k n < d.K.toNat * d.N.toNat := by
  unfold MatmulParam.rhsFlat
  split
  · rw [Nat.mul_comm d.K.toNat]
    exact flat_lt hn hk
  · exact flat_lt hk hn

theorem MatmulParam.toNat_lhsOff {d : MatmulParam} {m : UInt32} {k : Nat}
    (hk : k < d.K.toNat) (h : d.lhsFlat m.toNat k < 4294967296) :
    (d.lhsOff m (UInt32.ofNat k)).toNat = d.lhsFlat m.toNat k := by
  have hnat := toNat_ofNat_lt hk
  unfold MatmulParam.lhsFlat at h ⊢
  unfold MatmulParam.lhsOff
  split_ifs at h ⊢
  · rw [toNat_mulAdd (by rw [hnat]; exact h), hnat]
  · rw [toNat_mulAdd (by rw [hnat]; exact h), hnat]

theorem MatmulParam.toNat_rhsOff {d : MatmulParam} {n : UInt32} {k : Nat}
    (hk : k < d.K.toNat) (h : d.rhsFlat k n.toNat < 4294967296) :
    (d.rhsOff (UInt32.ofNat k) n).toNat = d.rhsFlat k n.toNat := by
  have hnat := toNat_ofNat_lt hk
  unfold MatmulParam.rhsFlat at h ⊢
  unfold MatmulParam.rhsOff
  split_ifs at h ⊢
  · rw [toNat_mulAdd (by rw [hnat]; exact h), hnat]
  · rw [toNat_mulAdd (by rw [hnat]; exact h), hnat]

/-- The inner loop of one element reads its row and its column. -/
theorem matmulDot_resident {d : MatmulParam} {m n : UInt32} {t : CModel}
    (h : d.Resident) (hm : m.toNat < d.M.toNat) (hn : n.toNat < d.N.toNat) :
    forLoop d.K.toNat (matmulMac F d m n t) (Fp32.zero : F)
      = .ok (dotProduct F
          (fun k => elemAt t d.lhsAddr.toNat (d.lhsFlat m.toNat k))
          (fun k => elemAt t d.rhsAddr.toNat (d.rhsFlat k n.toNat))
          d.K.toNat) := by
  refine forLoop_ok fun k hk acc => ?_
  have hlEnd := h.lhs.2
  have hrEnd := h.rhs.2
  have hl := MatmulParam.lhsFlat_lt hm hk
  have hr := MatmulParam.rhsFlat_lt hk hn
  rw [sramEnd_eq] at hlEnd hrEnd
  have ha := readFP16_elem (F := F) (s := t)
    (toNat_elem (MatmulParam.toNat_lhsOff hk (by omega)) (by omega)) h.lhs hl
  have hb := readFP16_elem (F := F) (s := t)
    (toNat_elem (MatmulParam.toNat_rhsOff hk (by omega)) (by omega)) h.rhs hr
  rw [matmulMac, ha, ok_bind, hb, ok_bind]
  rfl

variable (F) in
/-- The value MATMUL gives element `(m, n)`: the sum of the products, plus
the old element when it accumulates. -/
def matmulResult (d : MatmulParam) (s : CModel) (m n : Nat) : F :=
  let dot := dotProduct F
    (fun k => elemAt s d.lhsAddr.toNat (d.lhsFlat m k))
    (fun k => elemAt s d.rhsAddr.toNat (d.rhsFlat k n)) d.K.toNat
  if d.accumulate ≠ 0 then
    Fp32.add dot (Fp32.fp16ToFp32 (elemAt s d.dstAddr.toNat (m * d.N.toNat + n)))
  else dot

/-- One element, on a memory whose earlier elements are already written. -/
theorem matmulCell_resident {d : MatmulParam} {s t : CModel} {i : Nat}
    (h : d.Resident) (hap : d.Apart) (hi : i < d.M.toNat * d.N.toNat)
    (hoff : AgreeOff s t d.dstAddr.toNat i) :
    matmulCell F d (UInt32.ofNat (i / d.N.toNat)) (UInt32.ofNat (i % d.N.toNat)) t
      = .ok (t.storeSram (d.dstAddr.toNat + i * 2) (u16Bytes (Fp32.fp32ToFp16
          (matmulResult F d s (i / d.N.toNat) (i % d.N.toNat))))) := by
  obtain ⟨hm, hn, hmn⟩ := flat_split hi
  have hmt : (UInt32.ofNat (i / d.N.toNat)).toNat = i / d.N.toNat := toNat_ofNat_lt hm
  have hnt : (UInt32.ofNat (i % d.N.toNat)).toNat = i % d.N.toNat := toNat_ofNat_lt hn
  have hdst : (d.dstAddr + (UInt32.ofNat (i / d.N.toNat) * d.N
      + UInt32.ofNat (i % d.N.toNat)) * DTYPE_SIZE).toNat
      = d.dstAddr.toNat + i * 2 := by
    rw [toNat_arrayElem h.dst (by omega) (by omega), hmt, hnt, hmn]
  have hdot := matmulDot_resident (F := F) (t := t) h (m := UInt32.ofNat (i / d.N.toNat))
    (n := UInt32.ofNat (i % d.N.toNat)) (by omega) (by omega)
  rw [hmt, hnt] at hdot
  have hlhs : ∀ k < d.K.toNat,
      elemAt t d.lhsAddr.toNat (d.lhsFlat (i / d.N.toNat) k)
        = elemAt s d.lhsAddr.toNat (d.lhsFlat (i / d.N.toNat) k) :=
    fun k hk => hoff.elemAt_apart (Nat.le_of_lt hi) hap.dstLhs
      (MatmulParam.lhsFlat_lt hm hk)
  have hrhs : ∀ k < d.K.toNat,
      elemAt t d.rhsAddr.toNat (d.rhsFlat k (i % d.N.toNat))
        = elemAt s d.rhsAddr.toNat (d.rhsFlat k (i % d.N.toNat)) :=
    fun k hk => hoff.elemAt_apart (Nat.le_of_lt hi) hap.dstRhs
      (MatmulParam.rhsFlat_lt hk hn)
  -- the element itself is not written yet
  have hold : elemAt t d.dstAddr.toNat i = elemAt s d.dstAddr.toNat i :=
    hoff.elemAt_eq (by omega)
  have hacc : matmulAcc F d (UInt32.ofNat (i / d.N.toNat))
      (UInt32.ofNat (i % d.N.toNat)) t
      = .ok (matmulResult F d s (i / d.N.toNat) (i % d.N.toNat)) := by
    rw [matmulAcc, hdot, dotProduct_congr hlhs hrhs, ok_bind, matmulResult]
    by_cases ha : d.accumulate ≠ 0
    · rw [if_pos ha, if_pos ha, readFP16_elem hdst h.dst hi, ok_bind, hold, hmn]
      rfl
    · rw [if_neg ha, if_neg ha]
      rfl
  rw [matmulCell, hacc, ok_bind]
  exact writeFP16_elem hdst h.dst hi

/-- **MATMUL on resident arrays that are apart**, transposed or not. -/
theorem matmul_resident {d : MatmulParam} {s : CModel} (h : d.Resident)
    (hap : d.Apart) :
    ∃ s', matmul F d s = .ok s'
      ∧ (∀ m < d.M.toNat, ∀ n < d.N.toNat,
          elemAt s' d.dstAddr.toNat (m * d.N.toNat + n)
            = Fp32.fp32ToFp16 (matmulResult F d s m n))
      ∧ AgreeOff s s' d.dstAddr.toNat (d.M.toNat * d.N.toNat) := by
  obtain ⟨s', hs', hval, hoff⟩ := forLoop_cells
    (fun i hi t hoff => matmulCell_resident (F := F) (s := s) h hap hi hoff)
  refine ⟨s', ?_, fun m hm n hn => ?_, hoff⟩
  · rw [matmul, h.noOverlap_iff.mpr hap, assert_true, ok_bind, forLoop_nest]
    exact hs'
  · rw [hval _ (flat_lt hm hn), flat_div hn, flat_mod hn]

variable (F) in
/-- The value without transposes. -/
def matmulValue (d : MatmulParam) (s : CModel) (m n : Nat) : F :=
  let dot := dotProduct F
    (fun k => elemAt s d.lhsAddr.toNat (m * d.K.toNat + k))
    (fun k => elemAt s d.rhsAddr.toNat (k * d.N.toNat + n)) d.K.toNat
  if d.accumulate ≠ 0 then
    Fp32.add dot (Fp32.fp16ToFp32 (elemAt s d.dstAddr.toNat (m * d.N.toNat + n)))
  else dot

theorem MatmulParam.Packed.matmulResult_eq {d : MatmulParam} (h : d.Packed)
    (s : CModel) (m n : Nat) : matmulResult F d s m n = matmulValue F d s m n := by
  simp only [matmulResult, matmulValue, MatmulParam.lhsFlat, MatmulParam.rhsFlat,
    h.transA, h.transB, Bool.false_eq_true, if_false]

/-- **MATMUL on packed arrays.** -/
theorem matmul_packed {d : MatmulParam} {s : CModel} (h : d.Packed) :
    ∃ s', matmul F d s = .ok s'
      ∧ (∀ m < d.M.toNat, ∀ n < d.N.toNat,
          elemAt s' d.dstAddr.toNat (m * d.N.toNat + n)
            = Fp32.fp32ToFp16 (matmulValue F d s m n))
      ∧ AgreeOff s s' d.dstAddr.toNat (d.M.toNat * d.N.toNat) := by
  obtain ⟨s', hs', hval, hoff⟩ := matmul_resident (F := F) (s := s) h.resident h.apart
  refine ⟨s', hs', fun m hm n hn => ?_, hoff⟩
  rw [hval m hm n hn, h.matmulResult_eq]

end Kernels

end EclipseNpu.Runtime

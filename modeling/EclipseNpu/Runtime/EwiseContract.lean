import EclipseNpu.Runtime.Kernels

/-!
# Runtime — EwiseContract

ELEMENTWISE as the ISA defines it: `dst[r, c] = lhs[r, c] op
rhs[r * rhsStride + c % rhsBlk]`, every operand from the memory before the
instruction. The executor walks a flat index and writes while it reads; the
destination may be the lhs, since element `i` is the last read of its bytes.
-/

namespace EclipseNpu.Runtime

open EclipseNpu.Lib

namespace EwiseParam

variable (d : EwiseParam)

/-- The rhs element of `dst[r, c]`. -/
def rhsOf (r c : Nat) : Nat := r * d.rhsStride.toNat + c % d.rhsBlk.toNat

/-- The elements of the output. -/
def count : Nat := d.rows.toNat * d.cols.toNat

/-- What the ISA asks of a descriptor: the period divides the row, everything
read or written lies in SRAM, and the output is the lhs or apart from it, and
apart from the rhs elements that are read. -/
structure Legal : Prop where
  cols : d.cols ≠ 0
  blk : d.rhsBlk ≠ 0
  dvd : d.cols % d.rhsBlk = 0
  dst : InSram d.dstAddr.toNat d.count
  lhs : InSram d.lhsAddr.toNat d.count
  rhs : ∀ r < d.rows.toNat, ∀ c < d.cols.toNat,
    InSram (d.rhsAddr.toNat + d.rhsOf r c * 2) 1
  dstLhs : d.lhsAddr = d.dstAddr
    ∨ ArraysApart d.lhsAddr.toNat d.count d.dstAddr.toNat d.count
  dstRhs : ∀ r < d.rows.toNat, ∀ c < d.cols.toNat,
    ArraysApart (d.rhsAddr.toNat + d.rhsOf r c * 2) 1 d.dstAddr.toNat d.count

variable {d}

/-- A flat index as a row and a column. -/
theorem row_col {i : Nat} (hi : i < d.count) :
    i / d.cols.toNat < d.rows.toNat ∧ i % d.cols.toNat < d.cols.toNat := by
  have hpos : 0 < d.cols.toNat := by
    rcases Nat.eq_zero_or_pos d.cols.toNat with h | h
    · rw [count, h, Nat.mul_zero] at hi
      omega
    · exact h
  exact ⟨(Nat.div_lt_iff_lt_mul hpos).mpr hi, Nat.mod_lt _ hpos⟩

theorem Legal.toNat_count (h : d.Legal) : (d.rows * d.cols).toNat = d.count := by
  have hend := h.dst.2
  rw [sramEnd_eq] at hend
  rw [UInt32.toNat_mul]
  exact Nat.mod_eq_of_lt (show d.count < 2 ^ 32 by omega)

/-- **The index of the executor is the index of the ISA**: `i % rhsBlk` is
`(i % cols) % rhsBlk`, since the period divides the row. -/
theorem Legal.rhsIndex_eq (h : d.Legal) {i : Nat} (hi : i < d.count) :
    (d.rhsIndex (UInt32.ofNat i)).toNat = d.rhsOf (i / d.cols.toNat) (i % d.cols.toNat) := by
  have hend := h.dst.2
  rw [sramEnd_eq] at hend
  obtain ⟨hr, hc⟩ := row_col hi
  obtain ⟨-, hrhs⟩ := h.rhs _ hr _ hc
  rw [sramEnd_eq] at hrhs
  have hi32 : (UInt32.ofNat i).toNat = i := toNat_ofNat_small (by omega)
  have hdiv : (UInt32.ofNat i / d.cols).toNat = i / d.cols.toNat := by
    rw [UInt32.toNat_div, hi32]
  have hdvd : d.rhsBlk.toNat ∣ d.cols.toNat := by
    have hmod := congrArg UInt32.toNat h.dvd
    rw [UInt32.toNat_mod, UInt32.toNat_zero] at hmod
    exact Nat.dvd_of_mod_eq_zero hmod
  have hmod : (UInt32.ofNat i % d.rhsBlk).toNat
      = i % d.cols.toNat % d.rhsBlk.toNat := by
    rw [UInt32.toNat_mod, hi32, Nat.mod_mod_of_dvd _ hdvd]
  unfold rhsOf at hrhs ⊢
  rw [rhsIndex, toNat_mulAdd, hdiv, hmod]
  rw [hdiv, hmod]
  omega

end EwiseParam

section Contract

variable {F : Type} [Fp32 F]

/-- **ELEMENTWISE matches its ISA definition**, in place included. -/
theorem execElementwise_contract {d : EwiseParam} {s : CModel} {descPtr : UInt32}
    (op : EwiseOp) (hread : readDesc EwiseParam.load 28 descPtr s = .ok d) (h : d.Legal)
    (hdiv : op = .div → ∀ r < d.rows.toNat, ∀ c < d.cols.toNat, Fp32.eq
      (Fp32.fp16ToFp32 (elemAt s d.rhsAddr.toNat (d.rhsOf r c)) : F) Fp32.zero = false) :
    ∃ s', execElementwise F descPtr op s = .ok s'
      ∧ (∀ r < d.rows.toNat, ∀ c < d.cols.toNat,
        elemAt s' d.dstAddr.toNat (r * d.cols.toNat + c)
          = Fp32.fp32ToFp16 (op.eval F
            (Fp32.fp16ToFp32 (elemAt s d.lhsAddr.toNat (r * d.cols.toNat + c)))
            (Fp32.fp16ToFp32 (elemAt s d.rhsAddr.toNat (d.rhsOf r c)))))
      ∧ AgreeOff s s' d.dstAddr.toNat d.count := by
  have hrow := fun i (hi : i < d.count) => EwiseParam.row_col hi
  obtain ⟨s', hs', hval, hoff⟩ := elementwise_cells (F := F) (s := s) op
    (fun i => d.rhsOf (i / d.cols.toNat) (i % d.cols.toNat)) h.cols h.blk h.dvd h.toNat_count
    (fun i hi => h.rhsIndex_eq hi) h.dst h.lhs
    (fun i hi => h.rhs _ (hrow i hi).1 _ (hrow i hi).2) h.dstLhs
    (fun i hi => h.dstRhs _ (hrow i hi).1 _ (hrow i hi).2)
    (fun hop i hi => hdiv hop _ (hrow i hi).1 _ (hrow i hi).2)
  refine ⟨s', ?_, fun r hr c hc => ?_, hoff⟩
  · rw [execElementwise, hread, ok_bind]
    exact hs'
  · rw [hval _ (flat_lt hr hc), flat_div hc, flat_mod hc]

end Contract

/-- `acc[r, c] += src[r, c % 2]` on two rows of four, in place. -/
def accumulateRows : EwiseParam :=
  { dstAddr := 0x10000000, lhsAddr := 0x10000000, rhsAddr := 0x10000100
    rows := 2, cols := 4, rhsBlk := 2, rhsStride := 2 }

/-- `acc` holds 1 to 8 and `src` 10 to 40, and the descriptor is loaded. -/
def accumulateState : CModel :=
  CModel.storeDdr
    (CModel.storeSram
      (CModel.storeSram (fun _ => 0) 0x10000000 (integerBytes [1, 2, 3, 4, 5, 6, 7, 8]))
      0x10000100 (integerBytes [10, 20, 30, 40]))
    0x40000100 accumulateRows.bytes

theorem execElementwise_contract_inPlace :
    ∃ s', @execElementwise Int Fp32.integers 0x40000100 .add accumulateState = .ok s'
      ∧ elemAt s' 0x10000000 (0 * 4 + 2) = intToFp16 13
      ∧ elemAt s' 0x10000000 (1 * 4 + 3) = intToFp16 48 := by
  have hread : readDesc EwiseParam.load 28 0x40000100 accumulateState
      = .ok accumulateRows :=
    readDesc_ok_iff.mpr ⟨by decide, (EwiseParam.load_bytes (storeDdr_holds _ _ _)).symm⟩
  have hlegal : accumulateRows.Legal :=
    { cols := by decide, blk := by decide, dvd := by decide, dst := by decide
      lhs := by decide, rhs := by decide, dstLhs := .inl rfl, dstRhs := by decide }
  obtain ⟨s', hs', hval, -⟩ :=
    @execElementwise_contract Int Fp32.integers _ _ _ .add hread hlegal nofun
  exact ⟨s', hs', (hval 0 (by decide) 2 (by decide)).trans (by decide +kernel),
    (hval 1 (by decide) 3 (by decide)).trans (by decide +kernel)⟩

end EclipseNpu.Runtime

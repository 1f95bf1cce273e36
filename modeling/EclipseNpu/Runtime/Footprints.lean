import EclipseNpu.Runtime.Easm
import Mathlib.Data.Set.Insert

/-!
# Runtime — Footprints

The bytes an instruction's loops address, written down per opcode
(`EasmInsn.reads`, `EasmInsn.writes`), and the theorem that these ARE a
footprint of the instruction: `runInsn_footprint`. Addresses are the
executor's own wrapping 32-bit ones, so there is no side condition.
-/

namespace EclipseNpu.Runtime

open EclipseNpu.Lib

/-! ## Addressed bytes -/

/-- The two bytes of the fp16 element at `addr`. -/
def elemBytes (addr : UInt32) : Set Loc :=
  {.sram addr.toNat, .sram (addr.toNat + 1)}

def MatmulParam.lhsElem (p : MatmulParam) (m k : Nat) : UInt32 :=
  p.lhsAddr + p.lhsOff (UInt32.ofNat m) (UInt32.ofNat k) * DTYPE_SIZE

def MatmulParam.rhsElem (p : MatmulParam) (k n : Nat) : UInt32 :=
  p.rhsAddr + p.rhsOff (UInt32.ofNat k) (UInt32.ofNat n) * DTYPE_SIZE

def MatmulParam.dstElem (p : MatmulParam) (m n : Nat) : UInt32 :=
  p.dstAddr + (UInt32.ofNat m * p.N + UInt32.ofNat n) * DTYPE_SIZE

/-- Element `i` of a packed fp16 array. -/
def packedElem (base : UInt32) (i : Nat) : UInt32 :=
  base + UInt32.ofNat i * DTYPE_SIZE

def EwiseParam.rhsElem (p : EwiseParam) (i : Nat) : UInt32 :=
  p.rhsAddr + p.rhsIndex (UInt32.ofNat i) * DTYPE_SIZE

/-- Element `j` of row `i` of a reduction's input. -/
def ReduceParam.srcElem (p : ReduceParam) (i j : Nat) : UInt32 :=
  p.rowAddr i + UInt32.ofNat j * DTYPE_SIZE

/-- The data bytes an instruction reads. An ELEMENTWISE without columns or
block fails its assertion before it reads anything. -/
def EasmInsn.reads : EasmInsn → Set Loc
  | .dmaLoad _ p => {l | ∃ i < p.rows.toNat, ∃ j < p.cols.toNat * 2,
      l = .ddr ((p.loadSrc i).toNat + j)}
  | .dmaStore _ p => {l | ∃ i < p.rows.toNat, ∃ j < p.cols.toNat * 2,
      l = .sram ((p.storeSrc i).toNat + j)}
  | .matmul _ p => {l |
      (∃ m < p.M.toNat, ∃ n < p.N.toNat, ∃ k < p.K.toNat,
        l ∈ elemBytes (p.lhsElem m k) ∨ l ∈ elemBytes (p.rhsElem k n))
      ∨ (p.accumulate ≠ 0 ∧ ∃ m < p.M.toNat, ∃ n < p.N.toNat,
        l ∈ elemBytes (p.dstElem m n))}
  | .elementwise _ _ p => {l | (p.cols ≠ 0 ∧ p.rhsBlk ≠ 0)
      ∧ ∃ i < (p.rows * p.cols).toNat,
        l ∈ elemBytes (packedElem p.lhsAddr i) ∨ l ∈ elemBytes (p.rhsElem i)}
  | .act _ p => {l | ∃ i < p.n.toNat, l ∈ elemBytes (packedElem p.srcAddr i)}
  | .reduce _ p => {l | ∃ i < p.rows.toNat, ∃ j < p.cols.toNat,
      l ∈ elemBytes (p.srcElem i j)}
  | .sync => ∅

/-- The data bytes an instruction writes. -/
def EasmInsn.writes : EasmInsn → Set Loc
  | .dmaLoad _ p => {l | ∃ i < p.rows.toNat, ∃ j < p.cols.toNat * 2,
      l = .sram ((p.loadDst i).toNat + j)}
  | .dmaStore _ p => {l | ∃ i < p.rows.toNat, ∃ j < p.cols.toNat * 2,
      l = .ddr ((p.storeDst i).toNat + j)}
  | .matmul _ p => {l | ∃ m < p.M.toNat, ∃ n < p.N.toNat,
      l ∈ elemBytes (p.dstElem m n)}
  | .elementwise _ _ p => {l | ∃ i < (p.rows * p.cols).toNat,
      l ∈ elemBytes (packedElem p.dstAddr i)}
  | .act _ p => {l | ∃ i < p.n.toNat, l ∈ elemBytes (packedElem p.dstAddr i)}
  | .reduce _ p => {l | ∃ i < p.rows.toNat,
      l ∈ elemBytes (packedElem p.dstAddr i)
        ∨ (p.kind = ReduceKind.ARGMAX.toU32 ∧ ∃ j < 4,
          l = .sram ((p.idxAddr + UInt32.ofNat i * 4).toNat + j))}
  | .sync => ∅

/-! ## Footprints of the primitives -/

variable {F : Type} [Fp32 F]

theorem readFP16_reads {addr : UInt32} {R : Set Loc} (h : elemBytes addr ⊆ R) :
    Reads (readFP16 F addr) R := by
  refine Reads.bindConst fun p hp => Reads.bindConst fun _ _ => ?_
  obtain ⟨rfl, -⟩ := sram_ok_iff.mp hp
  intro (s : CModel) (t : CModel) hst
  have hb : loadU16 s.sramByte addr.toNat = loadU16 t.sramByte addr.toNat :=
    loadU16_congr (hst _ (h (by simp [elemBytes])))
      (hst _ (h (by simp [elemBytes])))
  show Except.ok _ = Except.ok _
  rw [hb]

/-- A write of fixed bytes to a fixed SRAM place. -/
theorem storeSram_footprint {p : Nat} {bs : List UInt8} {R W : Set Loc}
    (h : ∀ j < bs.length, Loc.sram (p + j) ∈ W) :
    Footprint (fun s : CModel => (.ok (s.storeSram p bs) : Except Fault CModel))
      R W := by
  refine Footprint.assign {l | ∃ j < bs.length, l = .sram (p + j)}
    (fun l ⟨j, hj, hl⟩ => hl ▸ h j hj) (fun s l hl => ?_) ?_
  · cases l with
    | ddr a => rfl
    | sram a =>
        refine storeSram_out ?_
        by_contra ha
        exact hl ⟨a - p, by omega, by congr 1; omega⟩
  · rintro (s : CModel) (t : CModel) - l ⟨j, hj, rfl⟩
    have hs := storeSram_holds s p bs j hj
    have ht := storeSram_holds t p bs j hj
    exact hs.trans ht.symm

theorem writeFP16_footprint {addr : UInt32} {v : F} {R W : Set Loc}
    (h : elemBytes addr ⊆ W) : Footprint (writeFP16 addr v) R W := by
  have hW : ∀ j < (u16Bytes (Fp32.fp32ToFp16 v)).length,
      Loc.sram (addr.toNat + j) ∈ W := by
    intro j hj
    have hj2 : j < 2 := hj
    rcases (by omega : j = 0 ∨ j = 1) with rfl | rfl
    · exact h (by simp [elemBytes])
    · exact h (by simp [elemBytes])
  refine Footprint.bindConst fun p hp => Footprint.bindConst fun _ _ => ?_
  obtain ⟨rfl, -⟩ := sram_ok_iff.mp hp
  exact storeSram_footprint hW

/-! ## DMA -/

theorem copyToSram_footprint {dst src n : Nat} {R W : Set Loc}
    (hR : ∀ j < n, Loc.ddr (src + j) ∈ R)
    (hW : ∀ j < n, Loc.sram (dst + j) ∈ W) :
    Footprint (fun s : CModel => (.ok (s.copyToSram dst src n)
      : Except Fault CModel)) R W := by
  refine Footprint.assign {l | ∃ j < n, l = .sram (dst + j)}
    (fun l ⟨j, hj, hl⟩ => hl ▸ hW j hj) (fun s l hl => ?_) ?_
  · cases l with
    | ddr a => rfl
    | sram a =>
        refine copyToSram_out ?_
        by_contra ha
        exact hl ⟨a - dst, by omega, by congr 1; omega⟩
  · rintro (s : CModel) (t : CModel) hst l ⟨j, hj, rfl⟩
    rw [copyToSram_in hj, copyToSram_in hj]
    exact hst _ (hR j hj)

theorem copyToDdr_footprint {dst src n : Nat} {R W : Set Loc}
    (hR : ∀ j < n, Loc.sram (src + j) ∈ R)
    (hW : ∀ j < n, Loc.ddr (dst + j) ∈ W) :
    Footprint (fun s : CModel => (.ok (s.copyToDdr dst src n)
      : Except Fault CModel)) R W := by
  refine Footprint.assign {l | ∃ j < n, l = .ddr (dst + j)}
    (fun l ⟨j, hj, hl⟩ => hl ▸ hW j hj) (fun s l hl => ?_) ?_
  · cases l with
    | sram a => rfl
    | ddr a =>
        refine copyToDdr_out ?_
        by_contra ha
        exact hl ⟨a - dst, by omega, by congr 1; omega⟩
  · rintro (s : CModel) (t : CModel) hst l ⟨j, hj, rfl⟩
    rw [copyToDdr_in hj, copyToDdr_in hj]
    exact hst _ (hR j hj)

theorem dmaLoad_footprint (d : UInt32) (p : DMAParam) :
    Footprint (dmaLoad p) (EasmInsn.dmaLoad d p).reads
      (EasmInsn.dmaLoad d p).writes := by
  refine Footprint.bindConst fun _ _ => Footprint.forLoop fun i hi => ?_
  refine Footprint.bindConst fun src hsrc => Footprint.bindConst fun dst hdst =>
    Footprint.bindConst fun _ _ => Footprint.bindConst fun _ _ => ?_
  obtain ⟨rfl, -⟩ := ddr_ok_iff.mp hsrc
  obtain ⟨rfl, -⟩ := sram_ok_iff.mp hdst
  exact copyToSram_footprint (fun j hj => ⟨i, hi, j, hj, rfl⟩)
    (fun j hj => ⟨i, hi, j, hj, rfl⟩)

theorem dmaStore_footprint (d : UInt32) (p : DMAParam) :
    Footprint (dmaStore p) (EasmInsn.dmaStore d p).reads
      (EasmInsn.dmaStore d p).writes := by
  refine Footprint.bindConst fun _ _ => Footprint.forLoop fun i hi => ?_
  refine Footprint.bindConst fun src hsrc => Footprint.bindConst fun dst hdst =>
    Footprint.bindConst fun _ _ => Footprint.bindConst fun _ _ => ?_
  obtain ⟨rfl, -⟩ := sram_ok_iff.mp hsrc
  obtain ⟨rfl, -⟩ := ddr_ok_iff.mp hdst
  exact copyToDdr_footprint (fun j hj => ⟨i, hi, j, hj, rfl⟩)
    (fun j hj => ⟨i, hi, j, hj, rfl⟩)

/-! ## Compute instructions -/

theorem matmul_footprint (d : UInt32) (p : MatmulParam) :
    Footprint (matmul F p) (EasmInsn.matmul d p).reads
      (EasmInsn.matmul d p).writes := by
  refine Footprint.bindConst fun _ _ => Footprint.forLoop fun m hm =>
    Footprint.forLoop fun n hn => ?_
  have hacc : Reads (matmulAcc F p (UInt32.ofNat m) (UInt32.ofNat n))
      (EasmInsn.matmul d p).reads := by
    refine Reads.bind (Reads.forLoop (fun k hk acc => ?_) _) fun acc => ?_
    · refine Reads.bind (readFP16_reads fun l hl => ?_) fun a =>
        Reads.bind (readFP16_reads fun l hl => ?_) fun b => Reads.const _ _
      · exact .inl ⟨m, hm, n, hn, k, hk, .inl hl⟩
      · exact .inl ⟨m, hm, n, hn, k, hk, .inr hl⟩
    · by_cases hz : p.accumulate ≠ 0
      · simp only [if_pos hz]
        exact Reads.bind (readFP16_reads fun l hl =>
          .inr ⟨hz, m, hm, n, hn, hl⟩) fun b => Reads.const _ _
      · simp only [if_neg hz]
        exact Reads.const _ _
  exact Footprint.readBind hacc fun acc =>
    writeFP16_footprint fun l hl => ⟨m, hm, n, hn, hl⟩

theorem elementwise_footprint (op : EwiseOp) (d : UInt32) (p : EwiseParam) :
    Footprint (elementwise F p op) (EasmInsn.elementwise op d p).reads
      (EasmInsn.elementwise op d p).writes := by
  refine Footprint.bindConst fun _ hne => Footprint.bindConst fun _ _ =>
    Footprint.forLoop fun i hi => ?_
  have hcb : p.cols ≠ 0 ∧ p.rhsBlk ≠ 0 := by
    simpa only [Bool.and_eq_true, bne_iff_ne] using assert_ok_iff.mp hne
  have hval : Reads (ewiseValue F p op (UInt32.ofNat i))
      (EasmInsn.elementwise op d p).reads := by
    refine Reads.bind
      (readFP16_reads fun l hl => ⟨hcb, i, hi, .inl hl⟩) fun lhs =>
      Reads.bind (readFP16_reads fun l hl => ⟨hcb, i, hi, .inr hl⟩) fun rhs => ?_
    exact Reads.const _ _
  exact Footprint.readBind hval fun v =>
    writeFP16_footprint fun l hl => ⟨i, hi, hl⟩

theorem act_footprint (d : UInt32) (p : ActParam) :
    Footprint (act F p) (EasmInsn.act d p).reads (EasmInsn.act d p).writes := by
  cases hk : ActKind.ofU32? p.kind with
  | none =>
      have : act F p = fun _ => .error (.assertion "unsupported act kind") := by
        funext s; simp only [act, hk]
      rw [this]
      exact Footprint.error _ _ _
  | some kind =>
      have : act F p = forLoop p.n.toNat (actCell F p kind) := by
        funext s; simp only [act, hk]
      rw [this]
      refine Footprint.forLoop fun i hi => ?_
      exact Footprint.readBind (readFP16_reads fun l hl => ⟨i, hi, hl⟩)
        fun v => writeFP16_footprint fun l hl => ⟨i, hi, hl⟩

theorem reduceRow_reads {kind : ReduceKind} {d : UInt32} {p : ReduceParam}
    {i : Nat} (hi : i < p.rows.toNat) (hc : 0 < p.cols.toNat) :
    Reads (reduceRow F p kind i) (EasmInsn.reduce d p).reads := by
  have h0 : p.rowAddr i = p.srcElem i 0 := by
    simp [ReduceParam.srcElem]
  refine Reads.bind (readFP16_reads fun l hl => ?_) fun x =>
    Reads.forLoop (fun j hj acc => ?_) _
  · exact ⟨i, hi, 0, hc, h0 ▸ hl⟩
  · exact Reads.bind (readFP16_reads fun l hl => ⟨i, hi, j + 1, by omega, hl⟩)
      fun y => Reads.const _ _

theorem reduceWrite_footprint {kind : ReduceKind} {d : UInt32} {p : ReduceParam}
    {i : Nat} {r : ValueIndex F} (hi : i < p.rows.toNat)
    (hk : ReduceKind.ofU32? p.kind = some kind) :
    Footprint (reduceWrite p kind i r) (EasmInsn.reduce d p).reads
      (EasmInsn.reduce d p).writes := by
  refine Footprint.bind (writeFP16_footprint fun l hl => ⟨i, hi, .inl hl⟩) ?_
  by_cases hargmax : kind = .ARGMAX
  · have hkind : p.kind = ReduceKind.ARGMAX.toU32 :=
      hargmax ▸ ReduceKind.ofU32?_eq_some hk
    simp only [if_pos hargmax]
    refine Footprint.bindConst fun q hq => Footprint.bindConst fun _ _ => ?_
    obtain ⟨rfl, -⟩ := sram_ok_iff.mp hq
    exact storeSram_footprint fun j hj => ⟨i, hi, .inr ⟨hkind, j, hj, rfl⟩⟩
  · simp only [if_neg hargmax]
    exact Footprint.pure _ _

theorem reduce_footprint (d : UInt32) (p : ReduceParam) :
    Footprint (reduce F p) (EasmInsn.reduce d p).reads
      (EasmInsn.reduce d p).writes := by
  refine Footprint.bindConst fun _ hne => Footprint.bindConst fun _ _ => ?_
  have hc : 0 < p.cols.toNat := by
    have := assert_ok_iff.mp hne
    simp only [Bool.and_eq_true, bne_iff_ne, ne_eq] at this
    have hz := mt UInt32.toNat_inj.mp this.2
    simp only [UInt32.toNat_zero] at hz
    omega
  cases hk : ReduceKind.ofU32? p.kind with
  | none => exact Footprint.error _ _ _
  | some kind =>
      exact Footprint.forLoop fun i hi => Footprint.readBind
        (reduceRow_reads hi hc) fun r => reduceWrite_footprint hi hk

/-- **The footprint of every instruction.** -/
theorem runInsn_footprint (x : EasmInsn) :
    Footprint (runInsn F x) x.reads x.writes := by
  cases x with
  | dmaLoad d p => exact dmaLoad_footprint d p
  | dmaStore d p => exact dmaStore_footprint d p
  | matmul d p => exact matmul_footprint d p
  | elementwise op d p => exact elementwise_footprint op d p
  | act d p => exact act_footprint d p
  | reduce d p => exact reduce_footprint d p
  | sync => exact Footprint.pure _ _

end EclipseNpu.Runtime

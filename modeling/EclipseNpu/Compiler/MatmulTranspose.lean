import EclipseNpu.Compiler.Verify

/-!
# Compiler — MatmulTranspose

One `eclipse.matmul` from its verifier to memory, with any combination of
`transA`, `transB` and `accumulate`. The emitter recovers `M`, `K` and `N`
from shapes that may be transposed, and the executor the element offsets from
these; on resident tiles nothing wraps, and the overlap assertion is what lets
every read refer to the memory before the instruction.
-/

namespace EclipseNpu.Compiler

open EclipseNpu.Lib EclipseNpu.Runtime

/-! ## The descriptor -/

/-- What `emitMatmulOp` writes for an `M`x`K` times `K`x`N` product. -/
def matmulDesc (dstAddr lhsAddr rhsAddr : UInt32) (M K N : Nat)
    (accumulate transA transB : Bool) : MatmulParam :=
  { dstAddr := dstAddr, lhsAddr := lhsAddr, rhsAddr := rhsAddr
    M := UInt32.ofNat M, K := UInt32.ofNat K, N := UInt32.ofNat N
    accumulate := if accumulate then 1 else 0
    transA := transA, transB := transB }

section Emit

variable {layout : Layout} {descAddr : UInt32} {lhs rhs dst : Value}
  {accumulate transA transB : Bool} {M K N : Nat}

theorem emitMatmulOp_desc {e : Emitted}
    (hs : VerifiedMatmul lhs rhs dst transA transB M K N)
    (h : emitMatmulOp layout descAddr lhs rhs dst accumulate transA transB = some e) :
    ∃ dstAddr lhsAddr rhsAddr, layout.sramAddr? dst = some dstAddr
      ∧ layout.sramAddr? lhs = some lhsAddr ∧ layout.sramAddr? rhs = some rhsAddr
      ∧ e = emitLine (.matmul descAddr (matmulDesc dstAddr lhsAddr rhsAddr M K N
        accumulate transA transB)) descAddr := by
  obtain ⟨dstAddr, hdst, h⟩ := Option.bind_eq_some_iff.mp h
  obtain ⟨lhsAddr, hlhs, h⟩ := Option.bind_eq_some_iff.mp h
  obtain ⟨rhsAddr, hrhs, h⟩ := Option.bind_eq_some_iff.mp h
  obtain ⟨lhs0, hl0, h⟩ := Option.bind_eq_some_iff.mp h
  obtain ⟨lhs1, hl1, h⟩ := Option.bind_eq_some_iff.mp h
  obtain ⟨rhs0, hr0, h⟩ := Option.bind_eq_some_iff.mp h
  obtain ⟨rhs1, hr1, h⟩ := Option.bind_eq_some_iff.mp h
  cases h
  refine ⟨dstAddr, lhsAddr, rhsAddr, hdst, hlhs, hrhs, ?_⟩
  rw [MemRefType.dim?, hs.lhs.shape] at hl0 hl1
  rw [MemRefType.dim?, hs.rhs.shape] at hr0 hr1
  cases hl0
  cases hl1
  cases hr0
  cases hr1
  cases transA <;> cases transB <;> rfl

variable (accumulate) in
/-- Resident tiles are resident arrays of the descriptor. -/
theorem matmulDesc_resident {dstAddr lhsAddr rhsAddr : UInt32}
    (hs : VerifiedMatmul lhs rhs dst transA transB M K N)
    (hres : layout.Resident [lhs, rhs, dst])
    (hdst : layout.sramAddr? dst = some dstAddr)
    (hlhs : layout.sramAddr? lhs = some lhsAddr)
    (hrhs : layout.sramAddr? rhs = some rhsAddr) :
    (matmulDesc dstAddr lhsAddr rhsAddr M K N accumulate transA transB).Resident :=
  ⟨inSram_ofNat (hres.array (by simp) hdst hs.dst.size),
    inSram_ofNat (hres.array (by simp) hlhs hs.lhs_size),
    inSram_ofNat (hres.array (by simp) hrhs hs.rhs_size)⟩

end Emit

/-! ## The product -/

section Product

variable {F : Type} [Fp32 F]

/-- `op(x)[i, j]` of a `rows`x`cols` operand, which is laid out `[cols, rows]`
when it is transposed. -/
def operandElem (s : CModel) (base : Nat) (trans : Bool) (rows cols i j : Nat) :
    UInt16 :=
  elemAt s base (if trans then j * rows + i else i * cols + j)

variable (F) in
/-- Element `(m, n)` of the product, all reads from the memory `s`: the sum
over `k` in order, plus the old element when it accumulates. -/
def productElem (s : CModel) (dst lhs rhs : Nat) (M K N : Nat)
    (accumulate transA transB : Bool) (m n : Nat) : F :=
  let sum := dotProduct F (fun k => operandElem s lhs transA M K m k)
    (fun k => operandElem s rhs transB K N k n) K
  if accumulate then Fp32.add sum (Fp32.fp16ToFp32 (elemAt s dst (m * N + n)))
  else sum

/-- The executor's value is that element, when the dimensions are exact. -/
theorem matmulResult_matmulDesc {dst lhs rhs : UInt32} {M K N : Nat}
    {accumulate transA transB : Bool} (s : CModel) (m n : Nat)
    (hM : M < 4294967296) (hK : K < 4294967296) (hN : N < 4294967296) :
    matmulResult F (matmulDesc dst lhs rhs M K N accumulate transA transB) s m n
      = productElem F s dst.toNat lhs.toNat rhs.toNat M K N accumulate transA
        transB m n := by
  simp only [matmulResult, productElem, matmulDesc, MatmulParam.lhsFlat,
    MatmulParam.rhsFlat, operandElem, toNat_ofNat_small hM, toNat_ofNat_small hK,
    toNat_ofNat_small hN]
  cases accumulate <;> rfl

/-- **MATMUL with transposes, from verifier to memory.** An accepted matmul
whose tiles are resident and whose descriptor fails no assertion finishes;
every element of dst is the rounded element of the product of the old
operands, and no byte outside dst changes. -/
theorem matmulOp_correct {layout : Layout} {descAddr next : UInt32}
    {lhs rhs dst : Value} {accumulate transA transB : Bool} {x : EasmInsn}
    {s : CModel}
    (hv : (Op.matmul lhs rhs dst accumulate transA transB).accepted = true)
    (hemit : emitOp layout descAddr (.matmul lhs rhs dst accumulate transA transB)
      = some ([x], next))
    (hres : layout.Resident [lhs, rhs, dst]) (hslot : SlotInDdr x)
    (hown : OwnDesc x s)
    (hrun : ∀ msg, exec F x.toInstruction s ≠ .error (.assertion msg)) :
    ∃ M K N dstAddr lhsAddr rhsAddr s',
      VerifiedMatmul lhs rhs dst transA transB M K N
        ∧ layout.sramAddr? dst = some dstAddr ∧ layout.sramAddr? lhs = some lhsAddr
        ∧ layout.sramAddr? rhs = some rhsAddr
        ∧ exec F x.toInstruction s = .ok s'
        ∧ (∀ m < M, ∀ n < N, elemAt s' dstAddr.toNat (m * N + n)
          = Fp32.fp32ToFp16 (productElem F s dstAddr.toNat lhsAddr.toNat
            rhsAddr.toNat M K N accumulate transA transB m n))
        ∧ AgreeOff s s' dstAddr.toNat (M * N) := by
  obtain ⟨M, K, N, hs⟩ := matmulShapes_of_accepted hv
  obtain ⟨dstAddr, lhsAddr, rhsAddr, hdst, hlhs, hrhs, he⟩ :=
    emitMatmulOp_desc hs hemit
  cases he
  have hparam := matmulDesc_resident accumulate hs hres hdst hlhs hrhs
  rw [exec_toInstruction hslot hown (StoreAvoids.of_notStore (by simp))] at hrun ⊢
  -- without overlap the run is total
  have hap := by
    refine hparam.noOverlap_iff.mp ?_
    by_contra hover
    refine hrun "matmul: dst/lhs/rhs must not overlap" ?_
    show matmul F _ s = _
    rw [matmul, Bool.eq_false_iff.mpr hover]
    rfl
  obtain ⟨s', hs', hval, hoff⟩ := matmul_resident (F := F) (s := s) hparam hap
  refine ⟨M, K, N, dstAddr, lhsAddr, rhsAddr, s', hs, hdst, hlhs, hrhs, hs',
    fun m hm n hn => ?_, ?_⟩
  · -- a product with an element has exact dimensions
    have hd := (hres.array (by simp) hdst hs.dst.size).2
    have hl := (hres.array (by simp) hlhs hs.lhs_size).2
    rw [sramEnd_eq] at hd hl
    have hMN : M ≤ M * N := Nat.le_mul_of_pos_right M (by omega)
    have hNM : N ≤ M * N := Nat.le_mul_of_pos_left N (by omega)
    have hKM : K ≤ M * K := Nat.le_mul_of_pos_left K (by omega)
    have hM : (UInt32.ofNat M).toNat = M := toNat_ofNat_small (by omega)
    have hN : (UInt32.ofNat N).toNat = N := toNat_ofNat_small (by omega)
    rw [← matmulResult_matmulDesc s m n (by omega) (by omega) (by omega)]
    have hcell := hval m (by show m < (UInt32.ofNat M).toNat; omega) n
      (by show n < (UInt32.ofNat N).toNat; omega)
    rw [← hcell]
    simp only [matmulDesc, hN]
  · have hd := (hres.array (by simp) hdst hs.dst.size).2
    rw [sramEnd_eq] at hd
    have hMN : (UInt32.ofNat M).toNat * (UInt32.ofNat N).toNat = M * N :=
      toNat_mul_ofNat (by omega)
    rw [← hMN]
    exact hoff

end Product

/-! ## Both operands transposed -/

/-- SRAM buffer number `k` of a function. -/
def sramBuffer (k rows cols : Nat) : Value :=
  .alloc ⟨0, .user k⟩ (f16Type rows cols) none

/-- A 3x2 lhs and a 2x3 rhs, both to be transposed, and a 2x2 dst. -/
def transLayout : Layout :=
  [(sramBuffer 0 3 2, .sram 0x10000000), (sramBuffer 1 2 3, .sram 0x10001000),
    (sramBuffer 2 2 2, .sram 0x10002000)]

def transMatmul : Op :=
  .matmul (sramBuffer 0 3 2) (sramBuffer 1 2 3) (sramBuffer 2 2 2) false true true

def transInsn : EasmInsn :=
  .matmul DESC_STARTADDR (matmulDesc 0x10002000 0x10000000 0x10001000 2 3 2 false
    true true)

theorem resident_transLayout :
    transLayout.Resident [sramBuffer 0 3 2, sramBuffer 1 2 3, sramBuffer 2 2 2] := by
  have h : ∀ v ∈ [sramBuffer 0 3 2, sramBuffer 1 2 3, sramBuffer 2 2 2],
      ∃ addr, transLayout.sramAddr? v = some addr ∧ 0x10000000 ≤ addr.toNat
        ∧ addr.toNat + v.type.sizeInBytes ≤ 0x10080000 := by
    simp only [List.forall_mem_cons, List.not_mem_nil, false_implies, implies_true,
      and_true]
    exact ⟨⟨0x10000000, by decide +kernel⟩, ⟨0x10001000, by decide +kernel⟩,
      ⟨0x10002000, by decide +kernel⟩⟩
  intro v hv addr haddr
  obtain ⟨addr', haddr', hlo, hhi⟩ := h v hv
  rw [haddr'] at haddr
  cases haddr
  exact ⟨hlo, hhi⟩

theorem matmulOp_correct_trans : ∃ s',
    @exec Int Fp32.integers transInsn.toInstruction (withDesc transInsn) = .ok s'
      ∧ AgreeOff (withDesc transInsn) s' 0x10002000 4 := by
  have hrun : outcome (@exec Int Fp32.integers transInsn.toInstruction
      (withDesc transInsn)) = none := by decide +kernel
  obtain ⟨t, ht⟩ := exists_of_outcome hrun
  obtain ⟨M, K, N, dstAddr, lhsAddr, rhsAddr, s', hs, hdst, -, -, hs', -, hoff⟩ :=
    @matmulOp_correct Int Fp32.integers transLayout DESC_STARTADDR
      (DESC_STARTADDR + DESC_LEN) _ _ _ _ _ _ transInsn (withDesc transInsn)
      (show transMatmul.accepted = true by decide +kernel)
      (show emitOp transLayout DESC_STARTADDR transMatmul = some ([transInsn], _) by
        decide +kernel)
      resident_transLayout (fun _ => by decide) (ownDesc_withDesc _)
      (by rw [ht]; simp)
  have hshape := hs.dst.shape
  rw [show (sramBuffer 2 2 2).type.shape = [2, 2] from rfl] at hshape
  cases hshape
  rw [show transLayout.sramAddr? (sramBuffer 2 2 2) = some 0x10002000 by
    decide +kernel] at hdst
  cases hdst
  exact ⟨s', hs', hoff⟩

end EclipseNpu.Compiler

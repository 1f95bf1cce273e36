import EclipseNpu.Compiler.EwiseBroadcast
import EclipseNpu.Compiler.SramLayout
import EclipseNpu.Runtime.RangeChecks

/-!
# Compiler — Verify

The verifiers of the compute operations
(`compiler/lib/Dialect/Eclipse/Ops`), and what their acceptance says about
the shapes.

Operand types come first: `EclipseOps.td` allows rank-2 f16 memrefs in SRAM,
and an i32 one for the index of a reduction, so the `verify` methods see
nothing else. The error texts are those `emitOpError` gets.
-/

namespace EclipseNpu.Compiler

open EclipseNpu.Lib EclipseNpu.Runtime

/-! ## Operand types -/

/-- `Eclipse_SRAMMemRef`. -/
def isSRAMMemRef (v : Value) : Bool :=
  decide (v.type.shape.length = 2) && decide (v.type.elementBits = 16)
    && decide (v.type.memorySpace = SRAM_MEMORY_SPACE)

/-- `Eclipse_SRAMIndexMemRef`. -/
def isSRAMIndexMemRef (v : Value) : Bool :=
  decide (v.type.shape.length = 2) && decide (v.type.elementBits = 32)
    && decide (v.type.memorySpace = SRAM_MEMORY_SPACE)

/-- The operand types of a compute operation. -/
def Op.operandTypesOk : Op → Bool
  | .matmul lhs rhs dst _ _ _ | .ewise _ lhs rhs dst =>
      isSRAMMemRef lhs && isSRAMMemRef rhs && isSRAMMemRef dst
  | .act _ src dst => isSRAMMemRef src && isSRAMMemRef dst
  | .reduce _ src dst idx =>
      isSRAMMemRef src && isSRAMMemRef dst && idx.all isSRAMIndexMemRef
  | _ => false

/-! ## The verify methods -/

/-- An array of dimensions in an error text. -/
def shapeText (shape : List Nat) : String :=
  ", ".intercalate (shape.map toString)

/-- The text two numbers that differ end with. -/
def versus (a b : String) : String := a ++ " vs " ++ b ++ ")"

/-- `getShape()[i]`. -/
def dim (v : Value) (i : Nat) : Nat := v.type.shape.getD i 0

/-- `MatmulOp::verify`. -/
def verifyMatmul (lhs rhs dst : Value) (transA transB : Bool) :
    Except String Unit :=
  -- transposed, lhs is laid out [K, M] and rhs [N, K]
  let m := if transA then dim lhs 1 else dim lhs 0
  let lhsK := if transA then dim lhs 0 else dim lhs 1
  let rhsK := if transB then dim rhs 1 else dim rhs 0
  let n := if transB then dim rhs 0 else dim rhs 1
  if lhsK ≠ rhsK then
    .error ("MatmulOp lhs K must match rhs M (" ++ versus (toString lhsK) (toString rhsK))
  else if dim dst 0 ≠ m then
    .error ("MatmulOp dst M must match lhs M ("
      ++ versus (toString (dim dst 0)) (toString m))
  else if dim dst 1 ≠ n then
    .error ("MatmulOp dst N must match rhs N ("
      ++ versus (toString (dim dst 1)) (toString n))
  else .ok ()

/-- `verifyEwiseShapes`, the same for all four operations. -/
def verifyEwiseShapes (lhs rhs dst : Value) : Except String Unit :=
  if lhs.type.shape ≠ dst.type.shape then
    .error ("lhs and dst shapes must match ("
      ++ versus (shapeText lhs.type.shape) (shapeText dst.type.shape))
  else if dst.type.shape.length ≠ 2 ∨ rhs.type.shape.length ≠ 2 then
    .error ("dst and rhs must be rank-2 ("
      ++ versus (shapeText dst.type.shape) (shapeText rhs.type.shape))
  else if dim rhs 0 ≠ 1 ∧ dim rhs 0 ≠ dim dst 0 then
    .error ("rhs rows must be 1 or match dst rows ("
      ++ versus (toString (dim rhs 0)) (toString (dim dst 0)))
  else if dim rhs 1 = 0 ∨ dim dst 1 % dim rhs 1 ≠ 0 then
    .error ("dst row width must be a multiple of rhs row width ("
      ++ versus (toString (dim dst 1)) (toString (dim rhs 1)))
  else .ok ()

/-- `ActOp::verify`. -/
def verifyAct (src dst : Value) : Except String Unit :=
  if src.type.shape ≠ dst.type.shape then
    .error ("ActOp src and dst shapes must match ("
      ++ versus (shapeText src.type.shape) (shapeText dst.type.shape))
  else .ok ()

/-- The index of an ARGMAX. -/
def verifyReduceIdx (src dst idx : Value) : Except String Unit :=
  if idx.type.shape ≠ dst.type.shape then
    .error "ReduceOp idx must have the same shape as dst"
  else if idx = src ∨ idx = dst then
    .error "ReduceOp src/dst/idx must not alias"
  else .ok ()

/-- ARGMAX has an index, the other kinds have none. -/
def verifyReduceKind (src dst : Value) : ReduceKind → Option Value → Except String Unit
  | .ARGMAX, some idx => verifyReduceIdx src dst idx
  | .ARGMAX, none => .error "ReduceOp idx is required by argmax, unused otherwise"
  | _, some _ => .error "ReduceOp idx is required by argmax, unused otherwise"
  | _, none => .ok ()

/-- `ReduceOp::verify`; shapes are static. -/
def verifyReduce (kind : ReduceKind) (src dst : Value) (idx : Option Value) :
    Except String Unit :=
  if dim src 0 = 0 ∨ dim src 1 = 0 then
    .error "ReduceOp src shape must be non-zero"
  else if dim dst 0 ≠ dim src 0 ∨ dim dst 1 ≠ 1 then
    .error ("ReduceOp dst must be rows x 1, got " ++ toString (dim dst 0) ++ " x "
      ++ toString (dim dst 1))
  else do
    verifyReduceKind src dst kind idx
    if src = dst then .error "ReduceOp src/dst must not alias" else .ok ()

def Op.verify : Op → Except String Unit
  | .matmul lhs rhs dst _ transA transB => verifyMatmul lhs rhs dst transA transB
  | .ewise _ lhs rhs dst => verifyEwiseShapes lhs rhs dst
  | .act _ src dst => verifyAct src dst
  | .reduce kind src dst idx => verifyReduce kind src dst idx
  | _ => .ok ()

/-- **A compute operation the dialect accepts.** -/
def Op.accepted (op : Op) : Bool :=
  op.operandTypesOk && decide (op.verify = .ok ())

/-! ## What acceptance says -/

/-- A rank-2 f16 buffer. -/
structure F16Shape (v : Value) (rows cols : Nat) : Prop where
  shape : v.type.shape = [rows, cols]
  bits : v.type.elementBits = 16

theorem F16Shape.size {v : Value} {rows cols : Nat} (h : F16Shape v rows cols) :
    v.type.sizeInBytes = rows * cols * 2 := by
  rw [MemRefType.sizeInBytes, MemRefType.numElements, h.shape, h.bits]
  simp only [List.prod_cons, List.prod_nil, Nat.mul_one]
  omega

theorem f16Shape_of_isSRAMMemRef {v : Value} (h : isSRAMMemRef v = true) :
    F16Shape v (dim v 0) (dim v 1) := by
  simp only [isSRAMMemRef, Bool.and_eq_true, decide_eq_true_eq] at h
  obtain ⟨⟨hrank, hbits⟩, -⟩ := h
  refine ⟨?_, hbits⟩
  unfold dim
  match hs : v.type.shape, hrank with
  | [r, c], _ => rfl

/-- The shapes of an accepted matmul: `op(lhs)` is `M`x`K`, `op(rhs)` is
`K`x`N`. -/
structure VerifiedMatmul (lhs rhs dst : Value) (transA transB : Bool)
    (M K N : Nat) : Prop where
  lhs : F16Shape lhs (if transA then K else M) (if transA then M else K)
  rhs : F16Shape rhs (if transB then N else K) (if transB then K else N)
  dst : F16Shape dst M N

theorem VerifiedMatmul.lhs_size {lhs rhs dst : Value} {transA transB : Bool}
    {M K N : Nat} (h : VerifiedMatmul lhs rhs dst transA transB M K N) :
    lhs.type.sizeInBytes = M * K * 2 := by
  rw [h.lhs.size]
  cases transA
  · rfl
  · show K * M * 2 = _
    rw [Nat.mul_comm K]

theorem VerifiedMatmul.rhs_size {lhs rhs dst : Value} {transA transB : Bool}
    {M K N : Nat} (h : VerifiedMatmul lhs rhs dst transA transB M K N) :
    rhs.type.sizeInBytes = K * N * 2 := by
  rw [h.rhs.size]
  cases transB
  · rfl
  · show N * K * 2 = _
    rw [Nat.mul_comm N]

theorem matmulShapes_of_accepted {lhs rhs dst : Value} {acc transA transB : Bool}
    (h : (Op.matmul lhs rhs dst acc transA transB).accepted = true) :
    ∃ M K N, VerifiedMatmul lhs rhs dst transA transB M K N := by
  simp only [Op.accepted, Op.operandTypesOk, Bool.and_eq_true, decide_eq_true_eq] at h
  obtain ⟨⟨⟨hl, hr⟩, hd⟩, hv⟩ := h
  have hl := f16Shape_of_isSRAMMemRef hl
  have hr := f16Shape_of_isSRAMMemRef hr
  have hd := f16Shape_of_isSRAMMemRef hd
  replace hv : verifyMatmul lhs rhs dst transA transB = .ok () := hv
  have hdims : (if transA then dim lhs 0 else dim lhs 1)
        = (if transB then dim rhs 1 else dim rhs 0)
      ∧ dim dst 0 = (if transA then dim lhs 1 else dim lhs 0)
      ∧ dim dst 1 = (if transB then dim rhs 0 else dim rhs 1) := by
    unfold verifyMatmul at hv
    dsimp only at hv
    generalize (if transA then dim lhs 0 else dim lhs 1) = lhsK at hv ⊢
    generalize (if transA then dim lhs 1 else dim lhs 0) = m at hv ⊢
    generalize (if transB then dim rhs 1 else dim rhs 0) = rhsK at hv ⊢
    generalize (if transB then dim rhs 0 else dim rhs 1) = n at hv ⊢
    split_ifs at hv with hk hm hn
    exact ⟨Decidable.not_not.mp hk, Decidable.not_not.mp hm, Decidable.not_not.mp hn⟩
  obtain ⟨hk, hm, hn⟩ := hdims
  rw [hm, hn] at hd
  refine ⟨_, if transA then dim lhs 0 else dim lhs 1, _, ?_, ?_, hd⟩
  · cases transA <;> exact hl
  · rw [hk]
    cases transB <;> exact hr

theorem ewiseShapes_of_accepted {kind : BinOp} {lhs rhs dst : Value}
    (h : (Op.ewise kind lhs rhs dst).accepted = true) :
    F16Shape dst (dim dst 0) (dim dst 1) ∧ F16Shape lhs (dim dst 0) (dim dst 1)
      ∧ F16Shape rhs (dim rhs 0) (dim rhs 1)
      ∧ smallShapeOk (dim rhs 0) (dim rhs 1) (dim dst 0) (dim dst 1) = true := by
  simp only [Op.accepted, Op.operandTypesOk, Bool.and_eq_true, decide_eq_true_eq] at h
  obtain ⟨⟨⟨hl, hr⟩, hd⟩, hv⟩ := h
  have hl := f16Shape_of_isSRAMMemRef hl
  have hd := f16Shape_of_isSRAMMemRef hd
  replace hv : verifyEwiseShapes lhs rhs dst = .ok () := hv
  unfold verifyEwiseShapes at hv
  split_ifs at hv with hshape hrank hrows hcols
  simp only [ne_eq, Decidable.not_not] at hshape
  refine ⟨hd, ⟨hshape.trans hd.shape, hl.bits⟩, f16Shape_of_isSRAMMemRef hr, ?_⟩
  simp only [smallShapeOk, Bool.and_eq_true, decide_eq_true_eq]
  omega

theorem actShapes_of_accepted {kind : ActKind} {src dst : Value}
    (h : (Op.act kind src dst).accepted = true) :
    F16Shape src (dim src 0) (dim src 1) ∧ F16Shape dst (dim src 0) (dim src 1) := by
  simp only [Op.accepted, Op.operandTypesOk, Bool.and_eq_true, decide_eq_true_eq] at h
  obtain ⟨⟨hs, hd⟩, hv⟩ := h
  have hs := f16Shape_of_isSRAMMemRef hs
  have hd := f16Shape_of_isSRAMMemRef hd
  replace hv : verifyAct src dst = .ok () := hv
  unfold verifyAct at hv
  split_ifs at hv with hshape
  simp only [ne_eq, Decidable.not_not] at hshape
  exact ⟨hs, hshape.symm.trans hs.shape, hd.bits⟩

/-- The shapes of an accepted reduction, and the index an ARGMAX must have. -/
theorem reduceShapes_of_accepted {kind : ReduceKind} {src dst : Value}
    {idx : Option Value} (h : (Op.reduce kind src dst idx).accepted = true) :
    F16Shape src (dim src 0) (dim src 1) ∧ F16Shape dst (dim src 0) 1
      ∧ dim src 0 ≠ 0 ∧ dim src 1 ≠ 0
      ∧ ((kind ≠ .ARGMAX ∧ idx = none)
        ∨ ∃ i, kind = .ARGMAX ∧ idx = some i
          ∧ i.type.sizeInBytes = dim src 0 * 4) := by
  simp only [Op.accepted, Op.operandTypesOk, Bool.and_eq_true, decide_eq_true_eq] at h
  obtain ⟨⟨⟨hs, hd⟩, hi⟩, hv⟩ := h
  have hs := f16Shape_of_isSRAMMemRef hs
  have hd := f16Shape_of_isSRAMMemRef hd
  replace hv : verifyReduce kind src dst idx = .ok () := hv
  unfold verifyReduce at hv
  by_cases hz : dim src 0 = 0 ∨ dim src 1 = 0
  · rw [if_pos hz] at hv
    cases hv
  by_cases hdims : dim dst 0 ≠ dim src 0 ∨ dim dst 1 ≠ 1
  · rw [if_neg hz, if_pos hdims] at hv
    cases hv
  rw [if_neg hz, if_neg hdims] at hv
  obtain ⟨_, hidx, -⟩ := bind_ok hv
  obtain ⟨hrows, hcols⟩ : dim dst 0 = dim src 0 ∧ dim dst 1 = 1 := by
    simpa only [ne_eq, not_or, Decidable.not_not] using hdims
  rw [hrows, hcols] at hd
  refine ⟨hs, hd, fun h => hz (.inl h), fun h => hz (.inr h), ?_⟩
  unfold verifyReduceKind at hidx
  split at hidx
  · rename_i i
    refine .inr ⟨i, rfl, rfl, ?_⟩
    unfold verifyReduceIdx at hidx
    split_ifs at hidx with hshape hne
    simp only [ne_eq, Decidable.not_not] at hshape
    simp only [Option.all_some, isSRAMIndexMemRef, Bool.and_eq_true,
      decide_eq_true_eq] at hi
    rw [MemRefType.sizeInBytes, MemRefType.numElements, hshape, hd.shape, hi.1.2]
    simp only [List.prod_cons, List.prod_nil, Nat.mul_one]
    omega
  · cases hidx
  · cases hidx
  · rename_i hkind
    exact .inl ⟨fun hk => hkind hk, rfl⟩

/-! ## Placed operands -/

/-- Every buffer of the list that has an SRAM address lies in SRAM. -/
def Layout.Resident (layout : Layout) (vs : List Value) : Prop :=
  ∀ v ∈ vs, ∀ addr, layout.sramAddr? v = some addr → BufferInSram (v, addr)

/-- **Distinct buffers share no byte.** -/
def Layout.Disjoint (layout : Layout) (vs : List Value) : Prop :=
  ∀ v ∈ vs, ∀ w ∈ vs, v ≠ w → ∀ a b, layout.sramAddr? v = some a →
    layout.sramAddr? w = some b → Apart (v, a) (w, b)

/-- A resident f16 buffer as an array of elements. -/
theorem Layout.Resident.array {layout : Layout} {vs : List Value} {v : Value}
    {addr : UInt32} {n : Nat} (h : layout.Resident vs) (hv : v ∈ vs)
    (ha : layout.sramAddr? v = some addr) (hsize : v.type.sizeInBytes = n * 2) :
    InSram addr.toNat n := by
  obtain ⟨hlo, hhi⟩ := h v hv addr ha
  dsimp only at hlo hhi
  rw [hsize] at hhi
  exact ⟨hlo, hhi⟩

/-- Two dimensions of a buffer that fits keep their product in 32 bits. -/
theorem toNat_mul_ofNat {m n : Nat} (h : m * n < 4294967296) :
    (UInt32.ofNat m).toNat * (UInt32.ofNat n).toNat = m * n := by
  rcases Nat.eq_zero_or_pos m with rfl | hm
  · simp
  rcases Nat.eq_zero_or_pos n with rfl | hn
  · simp
  have hle := Nat.le_mul_of_pos_right m hn
  have hle' := Nat.le_mul_of_pos_left n hm
  rw [toNat_ofNat_small (by omega), toNat_ofNat_small (by omega)]

theorem inSram_ofNat {base : UInt32} {m n : Nat} (h : InSram base.toNat (m * n)) :
    InSram base.toNat ((UInt32.ofNat m).toNat * (UInt32.ofNat n).toNat) := by
  have hend := h.2
  rw [sramEnd_eq] at hend
  rwa [toNat_mul_ofNat (by omega)]

end EclipseNpu.Compiler

import EclipseNpu.Compiler.Lowering
import EclipseNpu.Compiler.MatmulStream
import EclipseNpu.Runtime.Kernels

/-!
# Compiler — UnaryStream

The stream of an operation with one input: load, SYNC, compute, SYNC, store.
The run is stated for any compute line that turns a loaded source tile into a
result tile (`runEasm_unary`); activations and reductions supply theirs.
-/

namespace EclipseNpu.Compiler

open EclipseNpu.Lib EclipseNpu.Runtime

/-! ## Transfers of a whole buffer -/

theorem aligned_of_toNat {x : UInt32} (h : x.toNat % 16 = 0) :
    (x % 16 == 0) = true := by
  rw [beq_iff_eq]
  apply UInt32.toNat.inj
  rw [UInt32.toNat_mod]
  exact h

/-- A tile in SRAM and a tensor in DDR of the same shape, aligned for the DMA. -/
structure WholeBuffers (tile tensor : UInt32) (rows cols : Nat) : Prop where
  rows_pos : 0 < rows
  cols_pos : 0 < cols
  tileIn : InSram tile.toNat (rows * cols)
  tensorIn : InDdr tensor.toNat (rows * cols)
  tileAlign : tile.toNat % 16 = 0
  tensorAlign : tensor.toNat % 16 = 0

section Whole

variable {tile tensor : UInt32} {rows cols : Nat}

theorem WholeBuffers.aligned (h : WholeBuffers tile tensor rows cols) :
    (tile % 16 == 0 && tensor % 16 == 0) = true := by
  rw [Bool.and_eq_true]
  exact ⟨aligned_of_toNat h.tileAlign, aligned_of_toNat h.tensorAlign⟩

/-- The fields of the descriptor are the sizes. -/
theorem WholeBuffers.fields (h : WholeBuffers tile tensor rows cols) :
    (UInt32.ofNat rows).toNat = rows ∧ (UInt32.ofNat cols).toNat = cols
      ∧ (UInt32.ofNat (cols * 2)).toNat = cols * 2 := by
  have hend := h.tileIn.2
  rw [sramEnd_eq] at hend
  have hr : rows ≤ rows * cols := Nat.le_mul_of_pos_right rows h.cols_pos
  have hc : cols ≤ rows * cols := Nat.le_mul_of_pos_left cols h.rows_pos
  exact ⟨toNat_ofNat_small (by omega), toNat_ofNat_small (by omega),
    toNat_ofNat_small (by omega)⟩

/-- **The load of a whole tensor.** -/
theorem dmaLoad_whole (h : WholeBuffers tile tensor rows cols) (u : CModel) :
    ∃ u', dmaLoad (wholeTransfer tile tensor rows cols) u = .ok u'
      ∧ (∀ i < rows * cols, elemAt u' tile.toNat i = ddrElem u tensor.toNat i)
      ∧ AgreeOff u u' tile.toNat (rows * cols) := by
  obtain ⟨hrows, hcols, hstride⟩ := h.fields
  obtain ⟨hlo, hhi⟩ := h.tensorIn
  rw [ddrEnd_eq] at hhi
  have hR : (wholeTransfer tile tensor rows cols).rows.toNat = rows := hrows
  have hC : (wholeTransfer tile tensor rows cols).cols.toNat = cols := hcols
  have hS : (wholeTransfer tile tensor rows cols).dstStride.toNat = cols * 2 := hstride
  have hr : rows ≤ rows * cols := Nat.le_mul_of_pos_right rows h.cols_pos
  obtain ⟨u', hu', hval, hoff⟩ := dmaLoad_packed
    (p := wholeTransfer tile tensor rows cols) (s := u)
    (fun i => tensor.toNat + i * (cols * 2)) h.aligned
    (by rw [hC]; exact h.cols_pos) (by rw [hC, hS])
    (by rw [hR, hC]; exact h.tileIn)
    (fun i hi => by
      rw [hR] at hi
      have hrow := row_le cols hi
      refine ⟨toNat_packedRow tensor hstride hi (by omega) (by omega), by omega, ?_⟩
      rw [hC, ddrEnd_eq]
      omega)
  rw [hR, hC] at hval hoff
  refine ⟨u', hu', fun i hi => ?_, hoff⟩
  obtain ⟨hrow, hcol, hflat⟩ := flat_split hi
  have hv : elemAt u' tile.toNat (i / cols * cols + i % cols)
      = ddrElem u (tensor.toNat + i / cols * (cols * 2)) (i % cols) :=
    hval _ hrow _ hcol
  rw [hflat] at hv
  have hpos : tensor.toNat + i / cols * (cols * 2) + i % cols * 2
      = tensor.toNat + i * 2 := by
    conv_rhs => rw [← hflat]
    rw [Nat.add_mul, Nat.mul_assoc, Nat.add_assoc]
  rw [hv, ddrElem, ddrElem, hpos]

/-- **The store of a whole tile.** -/
theorem dmaStore_whole (h : WholeBuffers tile tensor rows cols) (u : CModel) :
    ∃ u', dmaStore (wholeTransfer tile tensor rows cols) u = .ok u'
      ∧ ∀ i < rows * cols, ddrElem u' tensor.toNat i = elemAt u tile.toNat i := by
  obtain ⟨hrows, hcols, hstride⟩ := h.fields
  have hR : (wholeTransfer tile tensor rows cols).rows.toNat = rows := hrows
  have hC : (wholeTransfer tile tensor rows cols).cols.toNat = cols := hcols
  obtain ⟨u', hu', hval⟩ := dmaStore_packed
    (p := wholeTransfer tile tensor rows cols) (s := u) h.aligned
    (by rw [hC]; exact h.cols_pos) (by rw [hC]; exact hstride)
    (by rw [hC]; exact hstride) (by rw [hR, hC]; exact h.tileIn)
    (by rw [hR, hC]; exact h.tensorIn)
  rw [hR, hC] at hval
  refine ⟨u', hu', fun i hi => ?_⟩
  obtain ⟨hrow, hcol, hflat⟩ := flat_split hi
  have hv : ddrElem u' tensor.toNat (i / cols * cols + i % cols)
      = elemAt u tile.toNat (i / cols * cols + i % cols) := hval _ hrow _ hcol
  rwa [hflat] at hv

/-- What the store writes in DDR is the tensor. -/
theorem writes_whole (h : WholeBuffers tile tensor rows cols) {d : UInt32} {x : Nat}
    (hx : Loc.ddr x ∈ EasmInsn.writes (.dmaStore d (wholeTransfer tile tensor rows cols))) :
    tensor.toNat ≤ x ∧ x < tensor.toNat + rows * cols * 2 := by
  obtain ⟨hrows, hcols, hstride⟩ := h.fields
  have hend := h.tensorIn.2
  rw [ddrEnd_eq] at hend
  have hr : rows ≤ rows * cols := Nat.le_mul_of_pos_right rows h.cols_pos
  obtain ⟨i, hi, j, hj, hx⟩ := hx
  have hR : (wholeTransfer tile tensor rows cols).rows.toNat = rows := hrows
  have hC : (wholeTransfer tile tensor rows cols).cols.toNat = cols := hcols
  rw [hR] at hi
  rw [hC] at hj
  have hrow := row_le cols hi
  have hdst : ((wholeTransfer tile tensor rows cols).storeDst i).toNat
      = tensor.toNat + i * (cols * 2) :=
    toNat_packedRow tensor hstride hi (by omega) (by omega)
  rw [hdst] at hx
  cases hx
  omega

end Whole

/-! ## The lines -/

/-- The addresses of the two tiles and of the two tensors. -/
structure UnaryAddrs where
  srcTile : UInt32
  dstTile : UInt32
  src : UInt32
  dst : UInt32

/-- The stream around a compute line; the three descriptors are consecutive. -/
def unaryLines (a : UnaryAddrs) (rows cols outRows outCols : Nat) (d : UInt32)
    (x : EasmInsn) : List EasmInsn :=
  [.dmaLoad d (wholeTransfer a.srcTile a.src rows cols), .sync, x, .sync,
    .dmaStore (slotAt d 2) (wholeTransfer a.dstTile a.dst outRows outCols)]

/-- Where allocation put the operands. The input is an argument or an alloc,
the result is an alloc. -/
structure UnaryPlacement (layout : Layout) (p : Nat) (src : Value) (tile : MemRefType)
    (out : Value) (a : UnaryAddrs) : Prop where
  srcTile : layout.sramAddr? (tileIn p 0 tile) = some a.srcTile
  dstTile : layout.sramAddr? (tileOut p (sramTypeOf out)) = some a.dstTile
  srcSource : (src.isBlockArg || layout.isAllocOp src) = true
  dstSource : layout.isAllocOp out = true
  src : ddrBaseAddr layout src = some a.src
  dst : ddrBaseAddr layout out = some a.dst

/-- Tiles and tensors in range and aligned, the tiles apart from each other and
the result tensor apart from the descriptors, which are three. -/
structure UnaryGeometry (a : UnaryAddrs) (rows cols outRows outCols : Nat)
    (desc : UInt32) : Prop where
  input : WholeBuffers a.srcTile a.src rows cols
  output : WholeBuffers a.dstTile a.dst outRows outCols
  tiles : ArraysApart a.srcTile.toNat (rows * cols) a.dstTile.toNat (outRows * outCols)
  descIn : InDdr desc.toNat (0x20 * 3)
  srcDesc : ArraysApart a.src.toNat (rows * cols) desc.toNat (0x20 * 3)
  dstDesc : ArraysApart a.dst.toNat (outRows * outCols) desc.toNat (0x20 * 3)

section Stream

variable {layout : Layout} {p rows cols outRows outCols : Nat} {src out : Value}
  {tile : MemRefType} {a : UnaryAddrs}

/-- **The emitted stream.** -/
theorem emitInsts_unary (hp : UnaryPlacement layout p src tile out a)
    (hsrc : src.type.shape = [rows, cols]) (hout : out.type.shape = [outRows, outCols])
    {d : UInt32} {compute : Op} {x : EasmInsn}
    (hx : emitOp layout (slotAt d 1) compute = some ([x], slotAt d 2)) :
    emitInsts layout d (unrollBody (emitSequence p [(src, tile)] out compute))
      = some (unaryLines a rows cols outRows outCols d x, slotAt d 3) := by
  have hs0 : src.type.dim? 0 = some rows := by rw [MemRefType.dim?, hsrc]; rfl
  have hs1 : src.type.dim? 1 = some cols := by rw [MemRefType.dim?, hsrc]; rfl
  have ho0 : out.type.dim? 0 = some outRows := by rw [MemRefType.dim?, hout]; rfl
  have ho1 : out.type.dim? 1 = some outCols := by rw [MemRefType.dim?, hout]; rfl
  have hsource : (!src.isBlockArg && !layout.isAllocOp src) = false := by
    rw [← Bool.not_or, hp.srcSource]; rfl
  have hload : emitOp layout d (.dmaLoad (toDDR ⟨p, .castIn 0⟩ src) (tileIn p 0 tile))
      = some ([.dmaLoad d (wholeTransfer a.srcTile a.src rows cols)], slotAt d 1) := by
    rw [← slotAt_succ, slotAt_zero]
    simp only [emitOp, emitDmaLoadOp, toDDR, hp.srcTile, hsource, hp.src, hs0, hs1]
    rfl
  have hstore : emitOp layout (slotAt d 2)
      (.dmaStore (tileOut p (sramTypeOf out)) (toDDR ⟨p, .castOut⟩ out))
      = some ([.dmaStore (slotAt d 2) (wholeTransfer a.dstTile a.dst outRows outCols)],
        slotAt d 3) := by
    rw [← slotAt_succ d 2]
    simp only [emitOp, emitDmaStoreOp, toDDR, hp.dstSource, hp.dst, hp.dstTile, ho0, ho1]
    rfl
  have hbody : unrollBody (emitSequence p [(src, tile)] out compute)
      = [⟨⟨p, .castIn 0⟩, .define (toDDR ⟨p, .castIn 0⟩ src)⟩,
        ⟨⟨p, .castOut⟩, .define (toDDR ⟨p, .castOut⟩ out)⟩,
        ⟨⟨p, .tileIn 0⟩, .define (tileIn p 0 tile)⟩,
        ⟨⟨p, .tileOut⟩, .define (tileOut p (sramTypeOf out))⟩,
        ⟨⟨p, .load 0⟩, .dmaLoad (toDDR ⟨p, .castIn 0⟩ src) (tileIn p 0 tile)⟩,
        ⟨⟨p, .fence 0⟩, .sync⟩, ⟨⟨p, .compute⟩, compute⟩, ⟨⟨p, .fence 1⟩, .sync⟩,
        ⟨⟨p, .store⟩, .dmaStore (tileOut p (sramTypeOf out)) (toDDR ⟨p, .castOut⟩ out)⟩,
        ⟨⟨p, .freeOut⟩, .dealloc (tileOut p (sramTypeOf out))⟩,
        ⟨⟨p, .free 0⟩, .dealloc (tileIn p 0 tile)⟩] := rfl
  rw [hbody, emitInsts_silent rfl, emitInsts_silent rfl, emitInsts_silent rfl,
    emitInsts_silent rfl, emitInsts_line hload, emitInsts_line (x := .sync) rfl,
    emitInsts_line hx, emitInsts_line (x := .sync) rfl, emitInsts_line hstore,
    emitInsts_silent rfl, emitInsts_silent rfl]
  rfl

/-- **The run of the stream**: what the compute line makes of a loaded tile
ends in the result tensor. -/
theorem runEasm_unary {F : Type} [Fp32 F] {insts : List Inst} {d : UInt32} {x : EasmInsn}
    {next : UInt32}
    (hemit : emitInsts layout d insts
      = some (unaryLines a rows cols outRows outCols d x, next))
    (g : UnaryGeometry a rows cols outRows outCols d)
    (hsync : x.isSync = false) (hstore : ∀ d p, x ≠ .dmaStore d p) {s : CModel}
    {v : Nat → UInt16}
    (hx : ∀ u : CModel, (∀ i < rows * cols, elemAt u a.srcTile.toNat i
        = ddrElem s a.src.toNat i) →
      ∃ u', runInsn F x u = .ok u'
        ∧ ∀ i < outRows * outCols, elemAt u' a.dstTile.toNat i = v i) :
    ∃ s', runEasm F (unaryLines a rows cols outRows outCols d x) s = .ok s'
      ∧ ∀ i < outRows * outCols, ddrElem s' a.dst.toNat i = v i := by
  have hlen : (described (unaryLines a rows cols outRows outCols d x)).length = 3 := by
    cases x with
    | sync => cases hsync
    | _ => rfl
  obtain ⟨s₁, hs₁, hrun⟩ := runEasm_emitted (F := F) hemit g.descIn.1
    (by have := g.descIn.2; rw [hlen]; omega)
    (fun y hy z hz => by
      have hsafe : (∀ d p, y ≠ .dmaStore d p) → False := fun hns =>
        not_writes_ddr hns z hz
      rw [hlen]
      simp only [unaryLines, List.mem_cons, List.not_mem_nil, or_false] at hy
      rcases hy with rfl | rfl | rfl | rfl | rfl
      · exact (hsafe nofun).elim
      · exact (hsafe nofun).elim
      · exact (hsafe hstore).elim
      · exact (hsafe nofun).elim
      · have hrange := writes_whole g.output hz
        have hap := g.dstDesc
        unfold ArraysApart at hap
        omega) s
  simp only [hlen] at hs₁
  have hsource : ∀ i < rows * cols, ddrElem s₁ a.src.toNat i = ddrElem s a.src.toNat i := by
    intro i hi
    have hap := g.srcDesc
    unfold ArraysApart at hap
    refine loadU16_congr (hs₁ _ ?_) (hs₁ _ ?_)
    · rintro y ⟨⟩
      omega
    · rintro y ⟨⟩
      omega
  obtain ⟨u, hu, hload, -⟩ := dmaLoad_whole g.input s₁
  obtain ⟨v, hv, hval⟩ := hx u fun i hi => (hload i hi).trans (hsource i hi)
  obtain ⟨s', hs', hout⟩ := dmaStore_whole g.output v
  refine ⟨s', ?_, fun i hi => (hout i hi).trans (hval i hi)⟩
  rw [hrun]
  show dmaLoad _ s₁ >>= runAll (runInsn F) _ = _
  rw [hu, ok_bind]
  show runInsn F x u >>= runAll (runInsn F) _ = _
  rw [hv, ok_bind]
  show dmaStore _ v >>= runAll (runInsn F) [] = _
  rw [hs']
  rfl

end Stream

end EclipseNpu.Compiler

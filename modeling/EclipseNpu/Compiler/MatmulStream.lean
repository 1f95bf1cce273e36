import EclipseNpu.Compiler.DescriptorRegion

/-!
# Compiler — MatmulStream

The lines a lowered matmul becomes. The peeled block 0 and every block of
the unrolled loop are the same five lines with the block number in the
subview offset and in the accumulate flag (`blockLines`), so the stream is
`blockLines` for each block and one store at the end.
-/

namespace EclipseNpu.Compiler

open EclipseNpu.Lib EclipseNpu.Runtime

/-! ## The lines -/

/-- The addresses of the three tiles and of the three tensors. -/
structure MatmulAddrs where
  lhsTile : UInt32
  rhsTile : UInt32
  dstTile : UInt32
  lhs : UInt32
  rhs : UInt32
  dst : UInt32

/-- Descriptor number `k` of a stream that starts at `d`. -/
def slotAt (d : UInt32) (k : Nat) : UInt32 := d + DESC_LEN * UInt32.ofNat k

/-- Block `b` of lhs: all rows, 16 columns. -/
def blockLhs (a : MatmulAddrs) (M K b : Nat) : DMAParam :=
  subviewTransfer a.lhsTile a.lhs K 0 (b * tileK) M tileK 1

/-- Block `b` of rhs: 16 rows, all columns. -/
def blockRhs (a : MatmulAddrs) (N b : Nat) : DMAParam :=
  subviewTransfer a.rhsTile a.rhs N (b * tileK) 0 tileK N 1

/-- The MATMUL of block `b`; all but the first accumulate. -/
def blockMatmul (a : MatmulAddrs) (M N b : Nat) : MatmulParam :=
  { dstAddr := a.dstTile, lhsAddr := a.lhsTile, rhsAddr := a.rhsTile
    M := UInt32.ofNat M, K := UInt32.ofNat tileK, N := UInt32.ofNat N
    accumulate := if b = 0 then 0 else 1, transA := false, transB := false }

def blockLines (a : MatmulAddrs) (M K N : Nat) (d : UInt32) (b : Nat) :
    List EasmInsn :=
  [.dmaLoad (slotAt d (3 * b)) (blockLhs a M K b),
    .dmaLoad (slotAt d (3 * b + 1)) (blockRhs a N b),
    .sync,
    .matmul (slotAt d (3 * b + 2)) (blockMatmul a M N b),
    .sync]

/-- The stream of a matmul with `t` blocks. -/
def matmulLines (a : MatmulAddrs) (M K N : Nat) (d : UInt32) (t : Nat) :
    List EasmInsn :=
  (List.range t).flatMap (blockLines a M K N d)
    ++ [.dmaStore (slotAt d (3 * t)) (wholeTransfer a.dstTile a.dst M N)]

/-! ## The walk in pieces -/

theorem slotAt_zero (d : UInt32) : slotAt d 0 = d := by
  show d + DESC_LEN * 0 = d
  rw [UInt32.mul_zero, UInt32.add_zero]

theorem slotAt_succ (d : UInt32) (k : Nat) :
    slotAt d k + DESC_LEN = slotAt d (k + 1) := by
  rw [slotAt, slotAt, UInt32.ofNat_add, UInt32.mul_add, UInt32.add_assoc]
  rfl

/-- An operation that writes one line. -/
theorem emitInsts_line {layout : Layout} {d d₁ : UInt32} {id : OpId} {op : Op}
    {is : List Inst} {x : EasmInsn} (h : emitOp layout d op = some ([x], d₁)) :
    emitInsts layout d (⟨id, op⟩ :: is)
      = (emitInsts layout d₁ is).map fun e => (x :: e.1, e.2) := by
  simp only [emitInsts, h, Option.bind_eq_bind, Option.bind_some]
  cases emitInsts layout d₁ is <;> rfl

/-- An operation that writes none. -/
theorem emitInsts_silent {layout : Layout} {d : UInt32} {id : OpId} {op : Op}
    {is : List Inst} (h : emitOp layout d op = some ([], d)) :
    emitInsts layout d (⟨id, op⟩ :: is) = emitInsts layout d is := by
  simp only [emitInsts, h, Option.bind_eq_bind, Option.bind_some]
  cases emitInsts layout d is <;> rfl

theorem emitInsts_append {layout : Layout} {is js : List Inst} :
    ∀ {d d₁ d₂ : UInt32} {xs ys : List EasmInsn},
      emitInsts layout d is = some (xs, d₁) →
      emitInsts layout d₁ js = some (ys, d₂) →
      emitInsts layout d (is ++ js) = some (xs ++ ys, d₂) := by
  induction is with
  | nil => intro d d₁ d₂ xs ys h₁ h₂; cases h₁; exact h₂
  | cons i is ih =>
      intro d d₁ d₂ xs ys h₁ h₂
      obtain ⟨⟨a, da⟩, hi, h₁⟩ := Option.bind_eq_some_iff.mp h₁
      obtain ⟨⟨b, db⟩, his, h₁⟩ := Option.bind_eq_some_iff.mp h₁
      cases h₁
      simp only [List.cons_append, emitInsts, hi, ih his h₂, Option.bind_eq_bind,
        Option.bind_some, Option.pure_def, List.append_assoc]

/-- A counted sequence of groups, each using the next `w` descriptors. -/
theorem emitInsts_range {layout : Layout} {d : UInt32} {w : Nat}
    (group : Nat → List Inst) (lines : Nat → List EasmInsn) {n : Nat}
    (h : ∀ b < n, emitInsts layout (slotAt d (w * b)) (group b)
      = some (lines b, slotAt d (w * (b + 1)))) :
    emitInsts layout d ((List.range n).flatMap group)
      = some ((List.range n).flatMap lines, slotAt d (w * n)) := by
  induction n with
  | zero => rw [Nat.mul_zero, slotAt_zero]; rfl
  | succ n ih =>
      simp only [List.range_succ, List.flatMap_append, List.flatMap_cons,
        List.flatMap_nil, List.append_nil]
      exact emitInsts_append (ih fun b hb => h b (by omega)) (h n (by omega))

/-! ## A lowered matmul -/

/-- Where allocation put the operands of a matmul: the tiles in SRAM, the
tensors in DDR. The two inputs are arguments or allocs, the result is an
alloc. -/
structure MatmulPlacement (layout : Layout) (p : Nat) (lhs rhs dst : Value)
    (a : MatmulAddrs) : Prop where
  lhsTile : layout.sramAddr? (lhsTile p lhs) = some a.lhsTile
  rhsTile : layout.sramAddr? (rhsTile p rhs) = some a.rhsTile
  dstTile : layout.sramAddr? (dstTile p lhs rhs dst) = some a.dstTile
  lhsSource : (lhs.isBlockArg || layout.isAllocOp lhs) = true
  rhsSource : (rhs.isBlockArg || layout.isAllocOp rhs) = true
  dstSource : layout.isAllocOp dst = true
  lhs : ddrBaseAddr layout lhs = some a.lhs
  rhs : ddrBaseAddr layout rhs = some a.rhs
  dst : ddrBaseAddr layout dst = some a.dst

/-- The shapes `Lowering.verify` has checked. -/
structure MatmulShapes (lhs rhs dst : Value) (M K N : Nat) : Prop where
  lhs : lhs.type.shape = [M, K]
  rhs : rhs.type.shape = [K, N]
  dst : dst.type.shape = [M, N]

section Lowered

variable {layout : Layout} {p : Nat} {lhs rhs dst : Value} {a : MatmulAddrs}
  {M K N : Nat}

theorem MatmulShapes.matmulM (h : MatmulShapes lhs rhs dst M K N) :
    matmulM lhs = M := by rw [Compiler.matmulM, h.lhs]; rfl

theorem MatmulShapes.matmulK (h : MatmulShapes lhs rhs dst M K N) :
    matmulK lhs = K := by rw [Compiler.matmulK, h.lhs]; rfl

theorem MatmulShapes.matmulN (h : MatmulShapes lhs rhs dst M K N) :
    matmulN rhs = N := by rw [Compiler.matmulN, h.rhs]; rfl

/-- A load of a K block of lhs. -/
theorem emitOp_subLhs (hp : MatmulPlacement layout p lhs rhs dst a)
    (hs : MatmulShapes lhs rhs dst M K N) (d : UInt32) (pos : Pos) (b : Nat) :
    emitOp layout d (.dmaLoad (subLhs p pos lhs (.const (b * tileK)))
        (Compiler.lhsTile p lhs))
      = some ([.dmaLoad d (blockLhs a M K b)], d + DESC_LEN) := by
  have hsrc : (!lhs.isBlockArg && !layout.isAllocOp lhs) = false := by
    rw [← Bool.not_or, hp.lhsSource]; rfl
  have hdim : lhs.type.dim? 1 = some K := by rw [MemRefType.dim?, hs.lhs]; rfl
  simp only [emitOp, emitDmaLoadOp, subLhs, toDDR, hp.lhsTile, hsrc, hp.lhs,
    hdim, hs.matmulM]
  rfl

/-- A load of a K block of rhs. -/
theorem emitOp_subRhs (hp : MatmulPlacement layout p lhs rhs dst a)
    (hs : MatmulShapes lhs rhs dst M K N) (d : UInt32) (pos : Pos) (b : Nat) :
    emitOp layout d (.dmaLoad (subRhs p pos rhs (.const (b * tileK)))
        (Compiler.rhsTile p rhs))
      = some ([.dmaLoad d (blockRhs a N b)], d + DESC_LEN) := by
  have hsrc : (!rhs.isBlockArg && !layout.isAllocOp rhs) = false := by
    rw [← Bool.not_or, hp.rhsSource]; rfl
  have hdim : rhs.type.dim? 1 = some N := by rw [MemRefType.dim?, hs.rhs]; rfl
  simp only [emitOp, emitDmaLoadOp, subRhs, toDDR, hp.rhsTile, hsrc, hp.rhs,
    hdim, hs.matmulN]
  rfl

/-- The matmul of a block. -/
theorem emitOp_blockMatmul (hp : MatmulPlacement layout p lhs rhs dst a)
    (hs : MatmulShapes lhs rhs dst M K N) (d : UInt32) (b : Nat) :
    emitOp layout d (.matmul (Compiler.lhsTile p lhs) (Compiler.rhsTile p rhs)
        (Compiler.dstTile p lhs rhs dst) (decide (b ≠ 0)) false false)
      = some ([.matmul d (blockMatmul a M N b)], d + DESC_LEN) := by
  have hl0 : (Compiler.lhsTile p lhs).type.dim? 0 = some M := by
    show some (Compiler.matmulM lhs) = _; rw [hs.matmulM]
  have hl1 : (Compiler.lhsTile p lhs).type.dim? 1 = some tileK := rfl
  have hr0 : (Compiler.rhsTile p rhs).type.dim? 0 = some tileK := rfl
  have hr1 : (Compiler.rhsTile p rhs).type.dim? 1 = some N := by
    show some (Compiler.matmulN rhs) = _; rw [hs.matmulN]
  have hacc : (if decide (b ≠ 0) = true then 1 else 0 : UInt32)
      = if b = 0 then 0 else 1 := by
    by_cases hb : b = 0
    · rw [if_pos hb, if_neg (by simp [hb])]
    · rw [if_neg hb, if_pos (by simp [hb])]
  simp only [emitOp, emitMatmulOp, hp.lhsTile, hp.rhsTile, hp.dstTile, hl0, hl1,
    hr0, hr1, hacc]
  rfl

/-- The store of the result. -/
theorem emitOp_storeDst (hp : MatmulPlacement layout p lhs rhs dst a)
    (hs : MatmulShapes lhs rhs dst M K N) (d : UInt32) :
    emitOp layout d (.dmaStore (Compiler.dstTile p lhs rhs dst)
        (toDDR ⟨p, .castOut⟩ dst))
      = some ([.dmaStore d (wholeTransfer a.dstTile a.dst M N)], d + DESC_LEN) := by
  have h0 : dst.type.dim? 0 = some M := by rw [MemRefType.dim?, hs.dst]; rfl
  have h1 : dst.type.dim? 1 = some N := by rw [MemRefType.dim?, hs.dst]; rfl
  simp only [emitOp, emitDmaStoreOp, toDDR, hp.dstSource, hp.dst, hp.dstTile,
    h0, h1]
  rfl

/-- The five lines of a K block, wherever its operations stand. -/
theorem emitInsts_matmulBlock (hp : MatmulPlacement layout p lhs rhs dst a)
    (hs : MatmulShapes lhs rhs dst M K N) (d : UInt32) (b : Nat)
    (sub load fence : Nat → Pos) (mac : Pos) :
    emitInsts layout (slotAt d (3 * b)) (matmulBlock p lhs rhs dst
        (.const (b * tileK)) (decide (b ≠ 0)) sub load fence mac)
      = some (blockLines a M K N d b, slotAt d (3 * (b + 1))) := by
  have hend : slotAt d (3 * b + 2 + 1) = slotAt d (3 * (b + 1)) := by
    rw [Nat.mul_add]
  rw [← hend, blockLines, matmulBlock, emitInsts_silent rfl, emitInsts_silent rfl,
    emitInsts_line (emitOp_subLhs hp hs _ _ b), slotAt_succ,
    emitInsts_line (emitOp_subRhs hp hs _ _ b), slotAt_succ,
    emitInsts_line (x := .sync) rfl,
    emitInsts_line (emitOp_blockMatmul hp hs _ b), slotAt_succ,
    emitInsts_line (x := .sync) rfl]
  rfl

/-- An operand that is its own buffer does not change between iterations. -/
theorem atIteration_source {v : Value}
    (h : (v.isBlockArg || layout.isAllocOp v) = true) (i : Nat) :
    v.atIteration i = v := by
  cases v with
  | blockArg | alloc | getGlobal => rfl
  | memorySpaceCast | subView | expandShape =>
      simp [Value.isBlockArg, Layout.isAllocOp, Value.isAlloc] at h

/-- Iteration `b` of the loop is K block `b`. -/
theorem matmulBlock_atIteration (hp : MatmulPlacement layout p lhs rhs dst a)
    (b : Nat) (sub load fence : Nat → Pos) (mac : Pos) :
    (matmulBlock p lhs rhs dst (.ivTimes tileK) true sub load fence mac).map
        (fun inst => { inst with op := inst.op.atIteration b })
      = matmulBlock p lhs rhs dst (.const (b * tileK)) true sub load fence mac := by
  have hl := atIteration_source hp.lhsSource b
  have hr := atIteration_source hp.rhsSource b
  simp [matmulBlock, Op.atIteration, Op.mapOperands, Value.atIteration, subLhs,
    subRhs, toDDR, Compiler.lhsTile, Compiler.rhsTile, Compiler.dstTile, tileIn,
    tileOut, hl, hr]

/-- K block `b` of the unrolled body: block 0 is the peeled one. -/
def unrolledBlock (p : Nat) (lhs rhs dst : Value) : Nat → List Inst
  | 0 => matmulBlock p lhs rhs dst (.const (0 * tileK)) (decide (0 ≠ 0))
      .subIn .load .fence .compute
  | b + 1 => matmulBlock p lhs rhs dst (.const ((b + 1) * tileK))
      (decide (b + 1 ≠ 0)) .loopSubIn .loopLoad .loopFence .loopCompute

/-- The unrolled loop over the blocks 1 to `t - 1`. -/
theorem unroll_loop (hp : MatmulPlacement layout p lhs rhs dst a) (id : OpId)
    (n : Nat) :
    (Stmt.scfFor id 1 (n + 1) 1 (matmulBlock p lhs rhs dst (.ivTimes tileK) true
        .loopSubIn .loopLoad .loopFence .loopCompute)).unroll
      = (List.range n).flatMap fun b => unrolledBlock p lhs rhs dst (b + 1) := by
  have hiter : Stmt.iterations 1 (n + 1) 1 = (List.range n).map (· + 1) := by
    rw [Stmt.iterations, show (n + 1 - 1 + (1 - 1)) / 1 = n by omega]
    exact List.map_congr_left fun j _ => by omega
  rw [Stmt.unroll, hiter, List.flatMap_map]
  exact List.flatMap_congr fun b _ => matmulBlock_atIteration hp (b + 1) _ _ _ _

/-- The loop of a lowered matmul, absent for a single block. -/
theorem unroll_optionalLoop (hp : MatmulPlacement layout p lhs rhs dst a)
    (id : OpId) (n : Nat) :
    unrollBody (if 1 < n + 1 then [.scfFor id 1 (n + 1) 1
        (matmulBlock p lhs rhs dst (.ivTimes tileK) true .loopSubIn .loopLoad
          .loopFence .loopCompute)] else [])
      = (List.range n).flatMap fun b => unrolledBlock p lhs rhs dst (b + 1) := by
  cases n with
  | zero => rfl
  | succ n =>
      rw [if_pos (by omega), ← unroll_loop hp id]
      exact List.append_nil _

theorem unrollBody_insts (insts : List Inst) :
    unrollBody (insts.map .inst) = insts := by
  induction insts with
  | nil => rfl
  | cons i is ih => exact congrArg (i :: ·) ih

theorem unrollBody_append (xs ys : List Stmt) :
    unrollBody (xs ++ ys) = unrollBody xs ++ unrollBody ys :=
  List.flatMap_append

/-- **The stream of a lowered matmul**, from any descriptor address on. -/
theorem emitInsts_lowerMatmul (hp : MatmulPlacement layout p lhs rhs dst a)
    (hs : MatmulShapes lhs rhs dst M K N) (ht : 0 < K / tileK) (d : UInt32) :
    emitInsts layout d (unrollBody (lowerMatmul p lhs rhs dst))
      = some (matmulLines a M K N d (K / tileK),
        slotAt d (3 * (K / tileK) + 1)) := by
  obtain ⟨n, hn⟩ : ∃ n, K / tileK = n + 1 := ⟨K / tileK - 1, by omega⟩
  have hblocks := emitInsts_range (d := d) (w := 3) (n := n + 1)
    (unrolledBlock p lhs rhs dst) (blockLines a M K N d)
    (fun b _ => by cases b <;> exact emitInsts_matmulBlock hp hs d _ _ _ _ _)
  have hbody : unrollBody (lowerMatmul p lhs rhs dst)
      = [⟨⟨p, .castIn 0⟩, .define (toDDR ⟨p, .castIn 0⟩ lhs)⟩,
          ⟨⟨p, .castIn 1⟩, .define (toDDR ⟨p, .castIn 1⟩ rhs)⟩,
          ⟨⟨p, .castOut⟩, .define (toDDR ⟨p, .castOut⟩ dst)⟩,
          ⟨⟨p, .tileIn 0⟩, .define (Compiler.lhsTile p lhs)⟩,
          ⟨⟨p, .tileIn 1⟩, .define (Compiler.rhsTile p rhs)⟩,
          ⟨⟨p, .tileOut⟩, .define (Compiler.dstTile p lhs rhs dst)⟩]
        ++ ((List.range (n + 1)).flatMap (unrolledBlock p lhs rhs dst)
        ++ [⟨⟨p, .store⟩, .dmaStore (Compiler.dstTile p lhs rhs dst)
            (toDDR ⟨p, .castOut⟩ dst)⟩,
          ⟨⟨p, .freeOut⟩, .dealloc (Compiler.dstTile p lhs rhs dst)⟩,
          ⟨⟨p, .free 1⟩, .dealloc (Compiler.rhsTile p rhs)⟩,
          ⟨⟨p, .free 0⟩, .dealloc (Compiler.lhsTile p lhs)⟩]) := by
    have hK := hs.matmulK
    rw [lowerMatmul, hK, hn, List.range_succ_eq_map, List.flatMap_cons,
      List.flatMap_map]
    simp only [unrollBody_append, unrollBody_insts, unroll_optionalLoop hp,
      List.append_assoc]
    rfl
  rw [hbody, hn]
  refine @emitInsts_append layout _ _ d d _ [] _ rfl (emitInsts_append hblocks ?_)
  rw [emitInsts_line (emitOp_storeDst hp hs _), slotAt_succ]
  rfl

end Lowered

end EclipseNpu.Compiler

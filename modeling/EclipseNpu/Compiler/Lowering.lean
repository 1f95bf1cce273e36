import EclipseNpu.Compiler.Ir
import Mathlib.Data.Option.Basic

/-!
# Compiler — Lowering

`convert-linalg-to-eclipse` (`compiler/lib/Conversion/ConvertLinalgToEclipse`):
which linalg operations the patterns accept, and the eclipse operations
each is replaced by.

An accepted operation is first summed up as a `Lowering` (the sequence it
becomes and the operands of that sequence), then expanded at its place in
the function body. `Lowering.verify` is what MLIR's own verifiers and the
`verify` methods of the emitted eclipse operations demand; the pass fails
where they do.
-/

namespace EclipseNpu.Compiler

open EclipseNpu.Runtime

/-! ## Linalg operations -/

inductive AffineExpr
  | dim (i : Nat)
  | symbol (i : Nat)
  | const (c : Int)
  | add (l r : AffineExpr)
  | mul (l r : AffineExpr)
  | mod (l r : AffineExpr)
  | floorDiv (l r : AffineExpr)
  | ceilDiv (l r : AffineExpr)
  deriving DecidableEq, Repr

structure AffineMap where
  numDims : Nat
  numSymbols : Nat
  results : List AffineExpr
  deriving DecidableEq, Repr

inductive IteratorType
  | parallel
  | reduction
  | window
  deriving DecidableEq, Repr

/-- A scalar of a linalg body: the block arguments, the arith operations
the patterns look for, and everything else. -/
inductive ScalarExpr
  | arg (i : Nat)
  | constant (bits : UInt16)
  | addf (l r : ScalarExpr)
  | subf (l r : ScalarExpr)
  | mulf (l r : ScalarExpr)
  | divf (l r : ScalarExpr)
  | maximumf (l r : ScalarExpr)
  | maxnumf (l r : ScalarExpr)
  | other (id : Nat)
  deriving DecidableEq, Repr

/-- `linalg.generic`: the block arguments of the body are the inputs, then
the outputs. -/
structure GenericOp where
  inputs : List Value
  outputs : List Value
  maps : List AffineMap
  iterators : List IteratorType
  yields : List ScalarExpr
  deriving DecidableEq, Repr

inductive LinalgOp
  | matmul (lhs rhs out : Value)
  | elementwise (kind : BinOp) (lhs rhs out : Value)
  | exp (input out : Value)
  | rsqrt (input out : Value)
  | generic (op : GenericOp)
  | reduce (input init : Value) (dimensions : List Nat) (combiner : ScalarExpr)
  deriving DecidableEq, Repr

/-- What an accepted operation becomes: the eclipse sequence and the
operands it reaches through `toDDR`. `reshape` says that the destination of
a reduction is first expanded to `[rows, 1]`. -/
inductive Lowering
  | matmul (lhs rhs dst : Value)
  | ewise (kind : BinOp) (big small out : Value)
  | act (kind : ActKind) (src dst : Value)
  | reduce (kind : ReduceKind) (src dst : Value) (reshape : Bool)
  deriving DecidableEq, Repr

/-! ## Elementwise patterns -/

def isIdentityMap (m : AffineMap) : Bool :=
  m.numDims = 2 ∧ m.numSymbols = 0 ∧ m.results = [.dim 0, .dim 1]

def isConstZero (e : AffineExpr) : Bool := e = .const 0

def matchModD1 : AffineExpr → Option Int
  | .mod l (.const c) => if l = .dim 1 then some c else none
  | _ => none

/-- `rhsMapMatches` on a rank-2 rhs and a rank-2 dst. -/
def rhsMapMatches (m : AffineMap) (rhsRows rhsCols dstCols : Nat) : Bool :=
  match m.numDims, m.numSymbols, m.results with
  | 2, 0, [r0, r1] =>
      (if rhsRows = 1 then isConstZero r0 else decide (r0 = .dim 0))
        && (if rhsCols = 1 then isConstZero r1
          else if rhsCols = dstCols then
            decide (r1 = .dim 1) || decide (matchModD1 r1 = some (rhsCols : Int))
          else decide (matchModD1 r1 = some (rhsCols : Int)))
  | _, _, _ => false

/-- `binOpOf`, with the two operands. -/
def binOpOf : ScalarExpr → Option (BinOp × ScalarExpr × ScalarExpr)
  | .addf l r => some (.Add, l, r)
  | .subf l r => some (.Sub, l, r)
  | .mulf l r => some (.Mul, l, r)
  | .divf l r => some (.Div, l, r)
  | _ => none

def argIndex : ScalarExpr → Option Nat
  | .arg i => some i
  | _ => none

/-- Which input has the output's shape: `(bigIdx, smallIdx)`. -/
def bigAndSmall (in0 in1 out : MemRefType) : Option (Nat × Nat) :=
  if in0.shape = out.shape then some (0, 1)
  else if in1.shape = out.shape then some (1, 0)
  else none

/-- The body operands are exactly `{big, small}`; the other order only for
a commutative operation. -/
def operandOrderOk (kind : BinOp) (aIdx bIdx bigIdx smallIdx : Nat) : Bool :=
  let forward := aIdx = bigIdx ∧ bIdx = smallIdx
  let swapped := aIdx = smallIdx ∧ bIdx = bigIdx
  decide (forward ∨ swapped)
    && !(decide swapped && decide (kind ≠ .Add ∧ kind ≠ .Mul))

/-- The shape rules of the small operand. -/
def smallShapeOk (smallRows smallCols outRows outCols : Nat) : Bool :=
  decide (0 < smallCols ∧ outCols % smallCols = 0)
    && decide (smallRows = 1 ∨ smallRows = outRows)

/-- `EwiseBroadcastLowering::matchAndRewrite`. -/
def matchEwiseBroadcast (op : GenericOp) : Option Lowering :=
  match op.inputs, op.outputs, op.yields with
  | [in0, in1], [out], [compute] => do
      guard (op.iterators.all (· = .parallel))
      let (kind, a, b) ← binOpOf compute
      let aIdx ← argIndex a
      let bIdx ← argIndex b
      guard (out.type.shape.length = 2)
      let (bigIdx, smallIdx) ← bigAndSmall in0.type in1.type out.type
      guard (operandOrderOk kind aIdx bIdx bigIdx smallIdx)
      let big := if bigIdx = 0 then in0 else in1
      let small := if smallIdx = 0 then in0 else in1
      match small.type.shape, out.type.shape, op.maps with
      | [smallRows, smallCols], [outRows, outCols], [m0, m1, m2] =>
          guard (smallShapeOk smallRows smallCols outRows outCols)
          let bigMap := if bigIdx = 0 then m0 else m1
          let smallMap := if smallIdx = 0 then m0 else m1
          guard (isIdentityMap bigMap && isIdentityMap m2
            && rhsMapMatches smallMap smallRows smallCols outCols)
          return .ewise kind big small out
      | _, _, _ => none
  | _, _, _ => none

/-! ## Activation patterns -/

/-- `m_AnyZeroFloat`: either zero. -/
def isAnyZeroFloat : ScalarExpr → Bool
  | .constant bits => bits = 0 ∨ bits = 0x8000
  | _ => false

/-- `matchActBody`: `max(x, 0)` in either spelling and order. -/
def matchActBody (root : ScalarExpr) : Option ActKind :=
  let relu (l r : ScalarExpr) : Option ActKind :=
    if (l = .arg 0 ∧ isAnyZeroFloat r) ∨ (r = .arg 0 ∧ isAnyZeroFloat l) then
      some .RELU
    else none
  match root with
  | .maximumf l r => relu l r
  | .maxnumf l r => relu l r
  | _ => none

def matchAct (op : GenericOp) : Option Lowering :=
  match op.inputs, op.outputs, op.yields with
  | [src], [dst], root :: _ => (matchActBody root).map fun k => .act k src dst
  | _, _, _ => none

/-! ## Reduction patterns -/

/-- `matchReduceBody`; `in` is block argument 0 and `out` block argument 1. -/
def matchReduceBody : ScalarExpr → Option ReduceKind
  | .addf l r =>
      if l ≠ .arg 1 ∧ r ≠ .arg 1 then none
      else
        let other := if l = .arg 1 then r else l
        if other = .arg 0 then some .SUM
        else if other = .mulf (.arg 0) (.arg 0) then some .SQUARE_SUM
        else none
  | .maximumf l r | .maxnumf l r =>
      if (l = .arg 0 ∧ r = .arg 1) ∨ (l = .arg 1 ∧ r = .arg 0) then some .MAX
      else none
  | _ => none

/-- `GenericReduceLowering::matchAndRewrite`. -/
def matchGenericReduce (op : GenericOp) : Option Lowering :=
  match op.inputs, op.outputs, op.iterators, op.maps, op.yields with
  | [src], [dst], [.parallel, .reduction], [m0, m1], root :: _ => do
      guard (isIdentityMap m0)
      guard (m1.results.length = 2 ∧ m1.results[1]? = some (.const 0))
      let kind ← matchReduceBody root
      return .reduce kind src dst false
  | _, _, _, _, _ => none

/-- `NamedReduceLowering::matchAndRewrite`. -/
def matchNamedReduce (input init : Value) (dimensions : List Nat)
    (combiner : ScalarExpr) : Option Lowering := do
  guard (dimensions = [1])
  guard (input.type.shape.length = 2 ∧ init.type.shape.length = 1)
  guard (init.type.shape[0]? = input.type.shape[0]?)
  let kind ← matchReduceBody combiner
  return .reduce kind input init true

/-- The pattern that accepts an operation, if one does. -/
def matchLinalg : LinalgOp → Option Lowering
  | .matmul lhs rhs out => some (.matmul lhs rhs out)
  | .elementwise kind lhs rhs out => some (.ewise kind lhs rhs out)
  | .exp input out => some (.act .EXP input out)
  | .rsqrt input out => some (.act .RSQRT input out)
  | .generic op =>
      (matchEwiseBroadcast op).or ((matchAct op).or (matchGenericReduce op))
  | .reduce input init dimensions combiner =>
      matchNamedReduce input init dimensions combiner

/-! ## Expansion -/

def tileK : Nat := 16

/-- `toDDR`: the operand, cast to memory space 1. -/
def toDDR (id : OpId) (value : Value) : Value :=
  .memorySpaceCast id value DDR_MEMORY_SPACE

/-- The SRAM tile type of a memref. -/
def sramTypeOf (v : Value) : MemRefType :=
  { v.type with memorySpace := SRAM_MEMORY_SPACE }

def tileIn (p k : Nat) (t : MemRefType) : Value := .alloc ⟨p, .tileIn k⟩ t none

def tileOut (p : Nat) (t : MemRefType) : Value := .alloc ⟨p, .tileOut⟩ t none

def stmt (p : Nat) (pos : Pos) (op : Op) : Stmt := .inst ⟨⟨p, pos⟩, op⟩

/-- The sequence every operation but matmul becomes: cast the operands,
allocate a tile each, load, SYNC, compute, SYNC, store, free. -/
def emitSequence (p : Nat) (ins : List (Value × MemRefType)) (out : Value)
    (compute : Op) : List Stmt :=
  let outDDR := toDDR ⟨p, .castOut⟩ out
  let outSram := tileOut p (sramTypeOf out)
  ins.mapIdx (fun k i => stmt p (.castIn k) (.define (toDDR ⟨p, .castIn k⟩ i.1)))
    ++ [stmt p .castOut (.define outDDR)]
    ++ ins.mapIdx (fun k i => stmt p (.tileIn k) (.define (tileIn p k i.2)))
    ++ [stmt p .tileOut (.define outSram)]
    ++ ins.mapIdx (fun k i => stmt p (.load k)
      (.dmaLoad (toDDR ⟨p, .castIn k⟩ i.1) (tileIn p k i.2)))
    ++ [stmt p (.fence 0) .sync, stmt p .compute compute, stmt p (.fence 1) .sync,
      stmt p .store (.dmaStore outSram outDDR),
      stmt p .freeOut (.dealloc outSram)]
    ++ (ins.mapIdx fun k i =>
      stmt p (.free k) (.dealloc (tileIn p k i.2))).reverse

def emitEwiseSequence (p : Nat) (kind : BinOp) (big small out : Value) :
    List Stmt :=
  emitSequence p [(big, sramTypeOf big), (small, sramTypeOf small)] out
    (.ewise kind (tileIn p 0 (sramTypeOf big)) (tileIn p 1 (sramTypeOf small))
      (tileOut p (sramTypeOf out)))

/-- Both tiles have the type of `dst`. -/
def lowerAct (p : Nat) (kind : ActKind) (src dst : Value) : List Stmt :=
  emitSequence p [(src, sramTypeOf dst)] dst
    (.act kind (tileIn p 0 (sramTypeOf dst)) (tileOut p (sramTypeOf dst)))

def lowerReduce (p : Nat) (kind : ReduceKind) (src dst : Value) : List Stmt :=
  emitSequence p [(src, sramTypeOf src)] dst
    (.reduce kind (tileIn p 0 (sramTypeOf src)) (tileOut p (sramTypeOf dst)) none)

/-- The rank-1 init of a named reduction as `[rows, 1]`. -/
def expandInit (p : Nat) (init : Value) : Value :=
  .expandShape ⟨p, .expand⟩ init [init.type.shape.headD 0, 1]

/-- `m`, `k` and `n` of a matmul. -/
def matmulM (lhs : Value) : Nat := lhs.type.shape.getD 0 0
def matmulK (lhs : Value) : Nat := lhs.type.shape.getD 1 0
def matmulN (rhs : Value) : Nat := rhs.type.shape.getD 1 0

def lhsTile (p : Nat) (lhs : Value) : Value :=
  tileIn p 0 { lhs.type with
    shape := [matmulM lhs, tileK], memorySpace := SRAM_MEMORY_SPACE }

def rhsTile (p : Nat) (rhs : Value) : Value :=
  tileIn p 1 { rhs.type with
    shape := [tileK, matmulN rhs], memorySpace := SRAM_MEMORY_SPACE }

def dstTile (p : Nat) (lhs rhs dst : Value) : Value :=
  tileOut p { dst.type with
    shape := [matmulM lhs, matmulN rhs], memorySpace := SRAM_MEMORY_SPACE }

/-- The K block of lhs that starts at column `off`. -/
def subLhs (p : Nat) (pos : Pos) (lhs : Value) (off : IndexValue) : Value :=
  .subView ⟨p, pos⟩ (toDDR ⟨p, .castIn 0⟩ lhs) [.const 0, off]
    [matmulM lhs, tileK] [1, 1]

/-- The K block of rhs that starts at row `off`. -/
def subRhs (p : Nat) (pos : Pos) (rhs : Value) (off : IndexValue) : Value :=
  .subView ⟨p, pos⟩ (toDDR ⟨p, .castIn 1⟩ rhs) [off, .const 0]
    [tileK, matmulN rhs] [1, 1]

/-- One K block: load both tiles, SYNC, multiply, SYNC. -/
def matmulBlock (p : Nat) (lhs rhs dst : Value) (off : IndexValue)
    (accumulate : Bool) (sub load fence : Nat → Pos) (mac : Pos) :
    List Inst :=
  [⟨⟨p, sub 0⟩, .define (subLhs p (sub 0) lhs off)⟩,
    ⟨⟨p, sub 1⟩, .define (subRhs p (sub 1) rhs off)⟩,
    ⟨⟨p, load 0⟩, .dmaLoad (subLhs p (sub 0) lhs off) (lhsTile p lhs)⟩,
    ⟨⟨p, load 1⟩, .dmaLoad (subRhs p (sub 1) rhs off) (rhsTile p rhs)⟩,
    ⟨⟨p, fence 0⟩, .sync⟩,
    ⟨⟨p, mac⟩, .matmul (lhsTile p lhs) (rhsTile p rhs)
      (dstTile p lhs rhs dst) accumulate false false⟩,
    ⟨⟨p, fence 1⟩, .sync⟩]

/-- `MatmulLowering::matchAndRewrite`: block 0 is peeled off the loop and
does not accumulate, so that the tile's old contents are never read. -/
def lowerMatmul (p : Nat) (lhs rhs dst : Value) : List Stmt :=
  let dstDDR := toDDR ⟨p, .castOut⟩ dst
  let tile := matmulK lhs / tileK
  [stmt p (.castIn 0) (.define (toDDR ⟨p, .castIn 0⟩ lhs)),
    stmt p (.castIn 1) (.define (toDDR ⟨p, .castIn 1⟩ rhs)),
    stmt p .castOut (.define dstDDR),
    stmt p (.tileIn 0) (.define (lhsTile p lhs)),
    stmt p (.tileIn 1) (.define (rhsTile p rhs)),
    stmt p .tileOut (.define (dstTile p lhs rhs dst))]
  ++ (matmulBlock p lhs rhs dst (.const 0) false .subIn .load .fence
    .compute).map .inst
  ++ (if 1 < tile then
      [.scfFor ⟨p, .loop⟩ 1 tile 1 (matmulBlock p lhs rhs dst (.ivTimes tileK)
        true .loopSubIn .loopLoad .loopFence .loopCompute)]
    else [])
  ++ [stmt p .store (.dmaStore (dstTile p lhs rhs dst) dstDDR),
    stmt p .freeOut (.dealloc (dstTile p lhs rhs dst)),
    stmt p (.free 1) (.dealloc (rhsTile p rhs)),
    stmt p (.free 0) (.dealloc (lhsTile p lhs))]

/-- The statements that replace an accepted operation, item `p` of its
function. -/
def Lowering.expand (p : Nat) : Lowering → List Stmt
  | .matmul lhs rhs dst => lowerMatmul p lhs rhs dst
  | .ewise kind big small out => emitEwiseSequence p kind big small out
  | .act kind src dst => lowerAct p kind src dst
  | .reduce kind src dst false => lowerReduce p kind src dst
  | .reduce kind src dst true =>
      stmt p .expand (.define (expandInit p dst))
        :: lowerReduce p kind src (expandInit p dst)

/-! ## Verifiers -/

/-- A rank-2 f16 memref of the given shape. -/
def isF16 (v : Value) (rows cols : Nat) : Bool :=
  v.type.shape = [rows, cols] ∧ v.type.elementBits = 16

/-- The shape rules of the linalg operations and of the emitted eclipse
operations, and the divisibility `MatmulLowering` takes for granted. -/
def Lowering.verify : Lowering → Bool
  | .matmul lhs rhs dst =>
      isF16 lhs (matmulM lhs) (matmulK lhs) && isF16 rhs (matmulK lhs) (matmulN rhs)
        && isF16 dst (matmulM lhs) (matmulN rhs)
        && decide (0 < matmulK lhs ∧ matmulK lhs % tileK = 0)
  | .ewise _ big small out =>
      match out.type.shape, small.type.shape with
      | [rows, cols], [smallRows, smallCols] =>
          isF16 out rows cols && isF16 big rows cols
            && isF16 small smallRows smallCols
            && smallShapeOk smallRows smallCols rows cols
      | _, _ => false
  | .act _ src dst =>
      match dst.type.shape with
      | [rows, cols] => isF16 dst rows cols && isF16 src rows cols
      | _ => false
  | .reduce _ src dst reshape =>
      match src.type.shape with
      | [rows, cols] =>
          isF16 src rows cols && decide (rows ≠ 0 ∧ cols ≠ 0)
            && decide (dst.type.elementBits = 16)
            && decide (dst.type.shape = if reshape then [rows] else [rows, 1])
      | _ => false

/-- One linalg operation through the pass. -/
def convertOp (op : LinalgOp) : Option Lowering := do
  let l ← matchLinalg op
  guard l.verify
  return l

/-! ## Functions -/

/-- An item of a bufferized function body. -/
inductive Item (α : Type)
  | define (v : Value)
  | op (l : α)
  | ret (operands : List Value)
  deriving DecidableEq, Repr

def Item.expand (p : Nat) : Item Lowering → List Stmt
  | .define v => [stmt p (.user 0) (.define v)]
  | .op l => l.expand p
  | .ret vs => [stmt p (.user 0) (.ret vs)]

/-- The accepted items; `none` where an operation cannot be legalized. -/
def convertItems (items : List (Item LinalgOp)) : Option (List (Item Lowering)) :=
  items.mapM fun
    | .define v => some (.define v)
    | .op l => (convertOp l).map .op
    | .ret vs => some (.ret vs)

/-- The statements of the items, numbered from `p` on. -/
def expandFrom (p : Nat) : List (Item Lowering) → List Stmt
  | [] => []
  | item :: items => item.expand p ++ expandFrom (p + 1) items

/-- `convert-linalg-to-eclipse` on a function body. -/
def convertLinalgToEclipse (items : List (Item LinalgOp)) : Option (List Stmt) :=
  (convertItems items).map (expandFrom 0)

end EclipseNpu.Compiler

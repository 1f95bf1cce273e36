import EclipseNpu.Compiler.Allocate
import EclipseNpu.Runtime.Easm

/-!
# Compiler — Emit

`eclipse-to-easm`: one walk over the unrolled body that writes a line per
eclipse operation and hands each descriptor the next 0x40 bytes.

`none` is an abort of the compiler (a null `getDefiningOp`, a failed
`cast`, an `llvm_unreachable`); `some ([], descAddr)` is an emitter that
returns without writing a line.
-/

namespace EclipseNpu.Compiler

open EclipseNpu.Runtime

def DESC_LEN : UInt32 := 0x40
def DESC_STARTADDR : UInt32 := DDR_ADDR + 0x100

/-- The emitted lines and the next descriptor address. -/
abbrev Emitted := List EasmInsn × UInt32

/-- `getDefiningOp<SramOp>().getAddr()`. -/
def Layout.sramAddr? (layout : Layout) (v : Value) : Option UInt32 :=
  match v.isAlloc, layout.find v with
  | true, some (.sram addr) => some addr
  | _, _ => none

/-- Still a `memref.alloc` after allocation: one that got no SRAM address. -/
def Layout.isAllocOp (layout : Layout) (v : Value) : Bool :=
  v.isAlloc && (layout.sramAddr? v).isNone

/-- `ddrBaseAddr` on an argument or an alloc: the `eclipse.ddr_addr`
attribute, which must be there. -/
def ddrBaseAddr (layout : Layout) (base : Value) : Option UInt32 :=
  match layout.find base with
  | some (.ddr addr) => some addr
  | _ => none

/-- The constant an offset folds to; `getV` aborts on anything else. -/
def IndexValue.getV : IndexValue → Option Nat
  | .const n => some n
  | .ivTimes _ => none

/-- Next free descriptor address after one line. -/
def emitLine (x : EasmInsn) (descAddr : UInt32) : Emitted :=
  ([x], descAddr + DESC_LEN)

/-- A whole buffer: packed rows. -/
def wholeTransfer (sram ddr : UInt32) (rows cols : Nat) : DMAParam :=
  { sramAddr := sram, ddrAddr := ddr
    rows := UInt32.ofNat rows, cols := UInt32.ofNat cols
    srcStride := UInt32.ofNat (cols * 2), dstStride := UInt32.ofNat (cols * 2) }

/-- A subview of a packed buffer of `baseCols` columns. -/
def subviewTransfer (sram baseAddr : UInt32)
    (baseCols rowOffset colOffset rows cols colStride : Nat) : DMAParam :=
  let rowSrcStride := UInt32.ofNat (baseCols * 2)
  let colStride := UInt32.ofNat (colStride * 2)
  { sramAddr := sram
    ddrAddr := baseAddr + UInt32.ofNat rowOffset * rowSrcStride
      + UInt32.ofNat colOffset * colStride
    rows := UInt32.ofNat rows, cols := UInt32.ofNat cols
    srcStride := rowSrcStride, dstStride := UInt32.ofNat (cols * 2) }

def emitDmaLoadOp (layout : Layout) (descAddr : UInt32) (src dst : Value) :
    Option Emitted := do
  let sram ← layout.sramAddr? dst
  match src with
  | .memorySpaceCast _ arg _ =>
      if !arg.isBlockArg && !layout.isAllocOp arg then return ([], descAddr)
      let addr ← ddrBaseAddr layout arg
      let rows ← arg.type.dim? 0
      let cols ← arg.type.dim? 1
      return emitLine (.dmaLoad descAddr (wholeTransfer sram addr rows cols))
        descAddr
  | .subView _ (.memorySpaceCast _ arg _) offsets sizes strides =>
      if !arg.isBlockArg && !layout.isAllocOp arg then return ([], descAddr)
      let baseAddr ← ddrBaseAddr layout arg
      let rowOffset ← offsets[0]?.bind IndexValue.getV
      let colOffset ← offsets[1]?.bind IndexValue.getV
      let rows ← sizes[0]?
      let cols ← sizes[1]?
      let baseCols ← arg.type.dim? 1
      let colStride ← strides[1]?
      return emitLine (.dmaLoad descAddr (subviewTransfer sram baseAddr baseCols
        rowOffset colOffset rows cols colStride)) descAddr
  | _ => none

/-- The destination has to be a cast of an alloc. -/
def emitDmaStoreOp (layout : Layout) (descAddr : UInt32) (src dst : Value) :
    Option Emitted :=
  match dst with
  | .memorySpaceCast _ arg _ => do
      guard (layout.isAllocOp arg)
      let addr ← ddrBaseAddr layout arg
      let sram ← layout.sramAddr? src
      let rows ← arg.type.dim? 0
      let cols ← arg.type.dim? 1
      return emitLine (.dmaStore descAddr (wholeTransfer sram addr rows cols))
        descAddr
  | _ => none

def emitMatmulOp (layout : Layout) (descAddr : UInt32) (lhs rhs dst : Value)
    (accumulate transA transB : Bool) : Option Emitted := do
  let dstAddr ← layout.sramAddr? dst
  let lhsAddr ← layout.sramAddr? lhs
  let rhsAddr ← layout.sramAddr? rhs
  let lhs0 ← lhs.type.dim? 0
  let lhs1 ← lhs.type.dim? 1
  let rhs0 ← rhs.type.dim? 0
  let rhs1 ← rhs.type.dim? 1
  return emitLine (.matmul descAddr
    { dstAddr := dstAddr, lhsAddr := lhsAddr, rhsAddr := rhsAddr
      M := UInt32.ofNat (if transA then lhs1 else lhs0)
      K := UInt32.ofNat (if transA then lhs0 else lhs1)
      N := UInt32.ofNat (if transB then rhs0 else rhs1)
      accumulate := if accumulate then 1 else 0
      transA := transA, transB := transB }) descAddr

def BinOp.mnemonic : BinOp → EwiseOp
  | .Add => .add
  | .Sub => .sub
  | .Mul => .mul
  | .Div => .div

/-- The descriptor of `emitEwise`: `rhs` has one row of blocks, or one per
row of `dst`. -/
def ewiseDesc (dst lhs rhs : UInt32) (rows cols rhsRows rhsCols : Nat) :
    EwiseParam :=
  let blk := UInt32.ofNat rhsCols
  { dstAddr := dst, lhsAddr := lhs, rhsAddr := rhs
    rows := UInt32.ofNat rows, cols := UInt32.ofNat cols
    rhsBlk := blk, rhsStride := if rhsRows = 1 then 0 else blk }

def emitEwise (layout : Layout) (descAddr : UInt32) (kind : BinOp)
    (lhs rhs dst : Value) : Option Emitted := do
  let dstAddr ← layout.sramAddr? dst
  let lhsAddr ← layout.sramAddr? lhs
  let rhsAddr ← layout.sramAddr? rhs
  let rows ← dst.type.dim? 0
  let cols ← dst.type.dim? 1
  let rhsRows ← rhs.type.dim? 0
  let rhsCols ← rhs.type.dim? 1
  return emitLine (.elementwise kind.mnemonic descAddr
    (ewiseDesc dstAddr lhsAddr rhsAddr rows cols rhsRows rhsCols)) descAddr

def emitActOp (layout : Layout) (descAddr : UInt32) (kind : ActKind)
    (src dst : Value) : Option Emitted := do
  let dstAddr ← layout.sramAddr? dst
  let srcAddr ← layout.sramAddr? src
  return emitLine (.act descAddr
    { dstAddr := dstAddr, srcAddr := srcAddr
      n := UInt32.ofNat src.type.numElements, kind := kind.toU32 }) descAddr

/-- A REDUCE line without an index has the address 0. -/
def Layout.idxAddr? (layout : Layout) : Option Value → Option UInt32
  | some idx => layout.sramAddr? idx
  | none => some 0

def emitReduceOp (layout : Layout) (descAddr : UInt32) (kind : ReduceKind)
    (src dst : Value) (idx : Option Value) : Option Emitted := do
  let dstAddr ← layout.sramAddr? dst
  let srcAddr ← layout.sramAddr? src
  let rows ← src.type.dim? 0
  let cols ← src.type.dim? 1
  let idxAddr ← layout.idxAddr? idx
  return emitLine (.reduce descAddr
    { dstAddr := dstAddr, idxAddr := idxAddr, srcAddr := srcAddr
      rows := UInt32.ofNat rows, cols := UInt32.ofNat cols
      kind := kind.toU32 }) descAddr

def emitSyncOp (descAddr : UInt32) : Emitted := ([.sync], descAddr)

/-- The dispatch of the walk; other operations write nothing. -/
def emitOp (layout : Layout) (descAddr : UInt32) : Op → Option Emitted
  | .dmaLoad src dst => emitDmaLoadOp layout descAddr src dst
  | .dmaStore src dst => emitDmaStoreOp layout descAddr src dst
  | .sync => some (emitSyncOp descAddr)
  | .matmul lhs rhs dst acc ta tb =>
      emitMatmulOp layout descAddr lhs rhs dst acc ta tb
  | .ewise kind lhs rhs dst => emitEwise layout descAddr kind lhs rhs dst
  | .act kind src dst => emitActOp layout descAddr kind src dst
  | .reduce kind src dst idx => emitReduceOp layout descAddr kind src dst idx
  | .define _ | .dealloc _ | .ret _ => some ([], descAddr)

/-- The walk over the unrolled operations. -/
def emitInsts (layout : Layout) : UInt32 → List Inst → Option Emitted
  | descAddr, [] => some ([], descAddr)
  | descAddr, i :: is => do
      let (xs, next) ← emitOp layout descAddr i.op
      let (ys, last) ← emitInsts layout next is
      return (xs ++ ys, last)

/-- The unrolled operations of a module, in walk order. -/
def unrollModule (module : Module) : List Inst :=
  module.flatMap fun f => unrollBody f.body

/-- `EclipseToEasm::runOnOperation`. -/
def eclipseToEasm (layout : Layout) (module : Module) : Option (List EasmInsn) :=
  (emitInsts layout DESC_STARTADDR (unrollModule module)).map (·.1)

end EclipseNpu.Compiler

import EclipseNpu.Runtime.Isa
import Mathlib.Algebra.Group.Nat.Defs

/-!
# Compiler — Ir

The part of MLIR the passes look at: memref types, values with the
operation that defines them, and straight-line bodies with counted loops.

A value is a term that names its defining operation and carries that
operation's operands, so `getDefiningOp` is a match on the term. `OpId`
keeps apart operations that would otherwise be equal terms. Shapes are
static; subview sizes and strides are constants, offsets may use the
induction variable of the enclosing loop.
-/

namespace EclipseNpu.Compiler

open EclipseNpu.Runtime

def SRAM_MEMORY_SPACE : Nat := 0
def DDR_MEMORY_SPACE : Nat := 1
def SRAM_ALIGNMENT : Nat := 32

/-! ## Types -/

structure MemRefType where
  shape : List Nat
  elementBits : Nat
  memorySpace : Nat
  deriving DecidableEq, Repr

def MemRefType.numElements (t : MemRefType) : Nat := t.shape.prod

def MemRefType.sizeInBytes (t : MemRefType) : Nat :=
  t.numElements * t.elementBits / 8

/-- `getShape()[i]`; an index past the rank is out of bounds. -/
def MemRefType.dim? (t : MemRefType) (i : Nat) : Option Nat := t.shape[i]?

/-- The 2D f16 memref of the default memory space. -/
def f16Type (rows cols : Nat) : MemRefType := ⟨[rows, cols], 16, SRAM_MEMORY_SPACE⟩

/-! ## Values -/

/-- Where in the expansion of an item an operation stands. -/
inductive Pos
  | castIn (k : Nat)
  | castOut
  | expand
  | tileIn (k : Nat)
  | tileOut
  | subIn (k : Nat)
  | load (k : Nat)
  | fence (k : Nat)
  | compute
  | loop
  | loopSubIn (k : Nat)
  | loopLoad (k : Nat)
  | loopFence (k : Nat)
  | loopCompute
  | store
  | free (k : Nat)
  | freeOut
  | user (k : Nat)
  deriving DecidableEq, Repr

/-- An operation: the item of the function body it was expanded from, and
its place there. -/
structure OpId where
  item : Nat
  pos : Pos
  deriving DecidableEq, Repr

/-- A subview offset: a constant, or the induction variable times one. -/
inductive IndexValue
  | const (n : Nat)
  | ivTimes (k : Nat)
  deriving DecidableEq, Repr

inductive Value
  | blockArg (func arg : Nat) (type : MemRefType)
  | alloc (id : OpId) (type : MemRefType) (alignment : Option Nat)
  | getGlobal (id : OpId) (type : MemRefType)
  | memorySpaceCast (id : OpId) (source : Value) (memorySpace : Nat)
  | subView (id : OpId) (source : Value) (offsets : List IndexValue)
      (sizes strides : List Nat)
  | expandShape (id : OpId) (source : Value) (shape : List Nat)
  deriving DecidableEq, Repr

namespace Value

def type : Value → MemRefType
  | blockArg _ _ t => t
  | alloc _ t _ => t
  | getGlobal _ t => t
  | memorySpaceCast _ s m => { s.type with memorySpace := m }
  | subView _ s _ sizes _ => { s.type with shape := sizes }
  | expandShape _ s shape => { s.type with shape := shape }

def isBlockArg : Value → Bool
  | blockArg .. => true
  | _ => false

def isAlloc : Value → Bool
  | alloc .. => true
  | _ => false

/-- A cast or a subview. -/
def isCastOrSubView : Value → Bool
  | memorySpaceCast .. => true
  | subView .. => true
  | _ => false

/-- The operands of the defining operation. -/
def operands : Value → List Value
  | blockArg .. | alloc .. | getGlobal .. => []
  | memorySpaceCast _ s _ => [s]
  | subView _ s _ _ _ => [s]
  | expandShape _ s _ => [s]

/-- A use of the value after `replaceAllUsesWith(old, new)`. -/
def replace (old new : Value) : Value → Value
  | blockArg f a t =>
      if blockArg f a t = old then new else blockArg f a t
  | alloc id t a => if alloc id t a = old then new else alloc id t a
  | getGlobal id t => if getGlobal id t = old then new else getGlobal id t
  | memorySpaceCast id s m =>
      if memorySpaceCast id s m = old then new
      else memorySpaceCast id (replace old new s) m
  | subView id s o z t =>
      if subView id s o z t = old then new
      else subView id (replace old new s) o z t
  | expandShape id s sh =>
      if expandShape id s sh = old then new
      else expandShape id (replace old new s) sh

/-- The result of an operation whose operands were replaced. -/
def replaceOperands (old new : Value) : Value → Value
  | memorySpaceCast id s m => memorySpaceCast id (replace old new s) m
  | subView id s o z t => subView id (replace old new s) o z t
  | expandShape id s sh => expandShape id (replace old new s) sh
  | v => v

/-- The value in iteration `i` of an unrolled loop. -/
def atIteration (i : Nat) : Value → Value
  | memorySpaceCast id s m => memorySpaceCast id (s.atIteration i) m
  | subView id s o z t =>
      subView id (s.atIteration i) (o.map fun
        | .const n => .const n
        | .ivTimes k => .const (i * k)) z t
  | expandShape id s sh => expandShape id (s.atIteration i) sh
  | v => v

end Value

/-! ## Operations -/

inductive BinOp
  | Add
  | Sub
  | Mul
  | Div
  deriving DecidableEq, Repr

/-- The operations the passes see. `define v` is the operation whose result
is `v` (an allocation, a cast, a subview, …). -/
inductive Op
  | define (v : Value)
  | dealloc (v : Value)
  | dmaLoad (src dst : Value)
  | dmaStore (src dst : Value)
  | matmul (lhs rhs dst : Value) (accumulate transA transB : Bool)
  | ewise (kind : BinOp) (lhs rhs dst : Value)
  | act (kind : ActKind) (src dst : Value)
  | reduce (kind : ReduceKind) (src dst : Value) (idx : Option Value)
  | sync
  | ret (operands : List Value)
  deriving DecidableEq, Repr

namespace Op

def operands : Op → List Value
  | define v => v.operands
  | dealloc v => [v]
  | dmaLoad src dst | dmaStore src dst | act _ src dst => [src, dst]
  | matmul lhs rhs dst _ _ _ => [lhs, rhs, dst]
  | ewise _ lhs rhs dst => [lhs, rhs, dst]
  | reduce _ src dst idx => [src, dst] ++ idx.toList
  | sync => []
  | ret vs => vs

/-- Apply `f` to every operand. -/
def mapOperands (f : Value → Value) (g : Value → Value) : Op → Op
  | define v => define (g v)
  | dealloc v => dealloc (f v)
  | dmaLoad src dst => dmaLoad (f src) (f dst)
  | dmaStore src dst => dmaStore (f src) (f dst)
  | matmul lhs rhs dst acc ta tb => matmul (f lhs) (f rhs) (f dst) acc ta tb
  | ewise kind lhs rhs dst => ewise kind (f lhs) (f rhs) (f dst)
  | act kind src dst => act kind (f src) (f dst)
  | reduce kind src dst idx => reduce kind (f src) (f dst) (idx.map f)
  | sync => sync
  | ret vs => ret (vs.map f)

/-- `replaceAllUsesWith`, as one user sees it. -/
def replace (old new : Value) : Op → Op :=
  mapOperands (Value.replace old new) (Value.replaceOperands old new)

/-- The clone of a loop body operation for iteration `i`. -/
def atIteration (i : Nat) : Op → Op :=
  mapOperands (Value.atIteration i) (Value.atIteration i)

def isDmaStore : Op → Bool
  | dmaStore .. => true
  | _ => false

end Op

structure Inst where
  id : OpId
  op : Op
  deriving DecidableEq, Repr

/-! ## Bodies -/

/-- A statement of a function body. A loop body has no loop of its own. -/
inductive Stmt
  | inst (i : Inst)
  | scfFor (id : OpId) (lb ub step : Nat) (body : List Inst)
  deriving DecidableEq, Repr

namespace Stmt

/-- The operations in walk order. -/
def insts : Stmt → List Inst
  | inst i => [i]
  | scfFor _ _ _ _ body => body

/-- The operations with the block they stand in: `none` is the function
body, otherwise the loop. -/
def walk : Stmt → List (Inst × Option OpId)
  | inst i => [(i, none)]
  | scfFor id _ _ _ body => body.map fun i => (i, some id)

/-- Edit the operations, block by block. -/
def mapInsts (f : List Inst → List Inst) : Stmt → List Stmt
  | inst i => (f [i]).map inst
  | scfFor id lb ub step body => [scfFor id lb ub step (f body)]

/-- The induction variable values of a counted loop. -/
def iterations (lb ub step : Nat) : List Nat :=
  (List.range ((ub - lb + (step - 1)) / step)).map fun j => lb + j * step

/-- `loopUnrollFull`, with the offsets folded to constants. -/
def unroll : Stmt → List Inst
  | inst i => [i]
  | scfFor _ lb ub step body =>
      (iterations lb ub step).flatMap fun i =>
        body.map fun inst => { inst with op := inst.op.atIteration i }

end Stmt

/-- The operations of a body in walk order. -/
def bodyInsts (body : List Stmt) : List Inst := body.flatMap Stmt.insts

/-- The straight-line program a body runs. -/
def unrollBody (body : List Stmt) : List Inst := body.flatMap Stmt.unroll

/-- The operations that have `v` as an operand. -/
def users (insts : List Inst) (v : Value) : List Inst :=
  insts.filter fun i => decide (v ∈ i.op.operands)

/-- A function: per argument its type if it is a memref, and its body. -/
structure Func where
  args : List (Option MemRefType)
  body : List Stmt
  deriving Repr

abbrev Module := List Func

end EclipseNpu.Compiler

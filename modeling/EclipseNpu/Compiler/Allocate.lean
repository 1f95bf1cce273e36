import EclipseNpu.Compiler.Ir

/-!
# Compiler — Allocate

`eclipse-allocate`: DDR addresses for memref arguments and for the allocs
that reach DDR, SRAM addresses for all other allocs.

The pass replaces an SRAM alloc by `eclipse.sram` and marks a DDR alloc or
an argument with `eclipse.ddr_addr`. Here the result is a `Layout`, the
list of bindings in the order they are made; a value bound to
`Binding.sram` is one whose defining operation is now `eclipse.sram`.
-/

namespace EclipseNpu.Compiler

open EclipseNpu.Runtime

inductive Binding
  | sram (addr : UInt32)
  | ddr (addr : UInt32)
  deriving DecidableEq, Repr

abbrev Layout := List (Value × Binding)

def Layout.find (layout : Layout) (v : Value) : Option Binding :=
  layout.lookup v

/-! ## SramAllocator -/

structure SramAllocator where
  base : UInt32
  size : UInt32
  next : UInt32
  deriving DecidableEq, Repr

def SramAllocator.init (base size : UInt32) : SramAllocator := ⟨base, size, base⟩

/-- `llvm::alignTo`. -/
def alignTo (value alignment : UInt32) : UInt32 :=
  UInt32.ofNat
    ((value.toNat + alignment.toNat - 1) / alignment.toNat * alignment.toNat)

/-- The address (0 on failure) and the allocator afterwards. -/
def SramAllocator.allocate (a : SramAllocator) (size alignment : UInt32) :
    UInt32 × SramAllocator :=
  let alignd := alignTo a.next alignment
  if alignd + size > a.base + a.size then (0, a)
  else (alignd, { a with next := alignd + size })

/-! ## The pass -/

inductive LayoutOption
  | bump
  | goldenMirror
  deriving DecidableEq, Repr

def ddrStride : UInt32 := 0x10000

/-- The arguments of one function, from argument `i` on: their bindings
and the next DDR address. -/
def bindArgs (func : Nat) :
    Nat → List (Option MemRefType) → UInt32 → Layout × UInt32
  | _, [], cur => ([], cur)
  | i, none :: args, cur => bindArgs func (i + 1) args cur
  | i, some t :: args, cur =>
      let rest := bindArgs func (i + 1) args (cur + ddrStride)
      ((.blockArg func i t, .ddr cur) :: rest.1, rest.2)

/-- The walk over the functions; it fails when the addresses handed out
pass the end of DDR. -/
def bindFuncs : Nat → List Func → UInt32 → Option (Layout × UInt32)
  | _, [], cur => some ([], cur)
  | func, f :: fs, cur =>
      let bound := bindArgs func 0 f.args cur
      if bound.2 > DDR_ADDR + DDR_SIZE then none
      else (bindFuncs (func + 1) fs bound.2).map fun rest =>
        (bound.1 ++ rest.1, rest.2)

def moduleInsts (module : Module) : List Inst :=
  module.flatMap fun f => bodyInsts f.body

/-- `goldenLayout`: the addresses of a matmul's three tiles, when all three
are allocs. -/
def goldenLayout (insts : List Inst) : List (Value × UInt32) :=
  insts.flatMap fun i =>
    match i.op with
    | .matmul lhs rhs dst _ _ _ =>
        if lhs.isAlloc && rhs.isAlloc && dst.isAlloc then
          let cSize := UInt32.ofNat dst.type.sizeInBytes
          [(lhs, SRAM_ADDR), (rhs, SRAM_ADDR + cSize), (dst, SRAM_ADDR + 2 * cSize)]
        else []
    | _ => []

/-- A later matmul overwrites the entry of an earlier one. -/
def goldenAddr (golden : List (Value × UInt32)) (v : Value) : Option UInt32 :=
  golden.reverse.lookup v

/-- The alloc stays in SRAM: default space, and no cast to DDR uses it. -/
def isSRAM (insts : List Inst) (alloc : Value) : Bool :=
  decide (alloc.type.memorySpace = SRAM_MEMORY_SPACE)
    && (users insts alloc).all fun use =>
      match use.op with
      | .define (.memorySpaceCast _ _ m) => decide (m ≠ DDR_MEMORY_SPACE)
      | _ => true

/-- State of the walk over the allocs. -/
structure AllocState where
  sram : SramAllocator
  curDdrAddr : UInt32
  layout : Layout
  deriving Repr

/-- The SRAM address of an alloc: its golden place, or the next free one. -/
def sramAddrFor (golden : List (Value × UInt32)) (sram : SramAllocator)
    (alloc : Value) (alignment : Option Nat) : UInt32 × SramAllocator :=
  match goldenAddr golden alloc with
  | some addr => (addr, sram)
  | none => sram.allocate (UInt32.ofNat alloc.type.sizeInBytes)
      (UInt32.ofNat (alignment.getD SRAM_ALIGNMENT))

/-- One alloc; `none` is "SRAM allocation failed: out of SRAM". -/
def bindAlloc (insts : List Inst) (golden : List (Value × UInt32))
    (st : AllocState) (alloc : Value) (alignment : Option Nat) :
    Option AllocState :=
  if isSRAM insts alloc then
    let r := sramAddrFor golden st.sram alloc alignment
    if r.1 = 0 then none
    else some { st with sram := r.2, layout := st.layout ++ [(alloc, .sram r.1)] }
  else
    some { st with
      curDdrAddr := st.curDdrAddr + ddrStride
      layout := st.layout ++ [(alloc, .ddr st.curDdrAddr)] }

def bindAllocs (insts : List Inst) (golden : List (Value × UInt32)) :
    List Inst → AllocState → Option AllocState
  | [], st => some st
  | i :: is, st =>
      match i.op with
      | .define (.alloc id t alignment) => do
          let st ← bindAlloc insts golden st (.alloc id t alignment) alignment
          bindAllocs insts golden is st
      | _ => bindAllocs insts golden is st

/-- The first DDR address handed out: the command queue region stays free. -/
def ddrStart : UInt32 := DDR_ADDR + 0x10000

/-- `EclipseAllocate::runOnOperation`; `none` when the pass fails. -/
def eclipseAllocate (option : LayoutOption) (module : Module) : Option Layout := do
  let (layout, cur) ← bindFuncs 0 module ddrStart
  let insts := moduleInsts module
  let golden := if option = .goldenMirror then goldenLayout insts else []
  let st ← bindAllocs insts golden insts
    { sram := .init SRAM_ADDR SRAM_SIZE, curDdrAddr := cur, layout := layout }
  return st.layout

end EclipseNpu.Compiler

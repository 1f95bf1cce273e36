import EclipseNpu.Lib.Footprint
import EclipseNpu.Runtime.CModel

/-!
# Runtime — Easm

A decoded `.easm` line and what `eclipse-run` does with a list of them
(`tools/eclipse-run.cpp`, `runtime/lib/simulator.cpp`): the main loop
first copies EVERY descriptor into DDR and queues the instructions, and
only then runs the queue. An instruction therefore executes the
descriptor its slot holds at that time, which is its own only if no later
line wrote the same bytes (`OwnDesc`).

`runInsn` is an instruction applied to its own fields; `exec_toInstruction`
ties it to `exec` for an instruction whose slot holds its fields.
-/

namespace EclipseNpu.Runtime

open EclipseNpu.Lib

/-- One instruction of a stream: its descriptor address and its fields. A
REDUCE line without an `idx` field has `idxAddr = 0`. -/
inductive EasmInsn
  | dmaLoad (desc : UInt32) (p : DMAParam)
  | dmaStore (desc : UInt32) (p : DMAParam)
  | matmul (desc : UInt32) (p : MatmulParam)
  | elementwise (op : EwiseOp) (desc : UInt32) (p : EwiseParam)
  | act (desc : UInt32) (p : ActParam)
  | reduce (desc : UInt32) (p : ReduceParam)
  | sync
  deriving DecidableEq, Repr

namespace EasmInsn

def isSync : EasmInsn → Bool
  | sync => true
  | _ => false

/-- The descriptor address; SYNC has `descPtr = 0`. -/
def desc : EasmInsn → UInt32
  | dmaLoad d _ | dmaStore d _ | matmul d _ | elementwise _ d _ | act d _
  | reduce d _ => d
  | sync => 0

/-- The bytes of the descriptor struct; SYNC has none. -/
def descBytes : EasmInsn → List UInt8
  | dmaLoad _ p | dmaStore _ p => p.bytes
  | matmul _ p => p.bytes
  | elementwise _ _ p => p.bytes
  | act _ p => p.bytes
  | reduce _ p => p.bytes
  | sync => []

def opcode : EasmInsn → OpCode
  | dmaLoad .. => .DMA_LOAD
  | dmaStore .. => .DMA_STORE
  | matmul .. => .MATMUL
  | elementwise .add .. => .ELEMENTWISE_ADD
  | elementwise .sub .. => .ELEMENTWISE_SUB
  | elementwise .mul .. => .ELEMENTWISE_MUL
  | elementwise .div .. => .ELEMENTWISE_DIV
  | act .. => .ACT
  | reduce .. => .REDUCE
  | sync => .SYNC

/-- The queue entry `sim.push` gets. -/
def toInstruction (x : EasmInsn) : Instruction := ⟨x.opcode, x.desc⟩

/-- Every descriptor struct fits a slot of 32 bytes. -/
theorem descBytes_length_le (x : EasmInsn) : x.descBytes.length ≤ 32 := by
  cases x <;> simp [descBytes]

end EasmInsn

/-! ## eclipse-run -/

/-- `Simulator::writeDDR`. -/
def writeDDR (addr : UInt32) (buffer : List UInt8) (s : CModel) :
    Except Fault CModel := do
  let p ← CModel.ddr addr
  ddrSpan p buffer.length
  return s.storeDdr p buffer

/-- The input files, the `i`-th (from 1) at `DDR_ADDR + 0x10000 * i`. -/
def writeInputs (files : List (List UInt8)) (s : CModel) :
    Except Fault CModel :=
  forLoop files.length (fun i s =>
    writeDDR (DDR_ADDR + 0x10000 * UInt32.ofNat (i + 1)) (files.getD i []) s) s

/-- The main loop of `eclipse-run`: one descriptor write per line other
than SYNC, in line order. -/
def loadDescs : List EasmInsn → CModel → Except Fault CModel
  | [], s => .ok s
  | x :: xs, s =>
      if x.isSync then loadDescs xs s
      else do
        let s ← writeDDR x.desc x.descBytes s
        loadDescs xs s

section Run

variable (F : Type) [Fp32 F]

/-- `Simulator::run` on the queued instructions (its cycle accounting
does not touch memory). -/
def runStream (xs : List EasmInsn) (s : CModel) : Except Fault CModel :=
  runAll (fun x s => exec F (EasmInsn.toInstruction x) s) xs s

/-- `eclipse-run` after the input files: descriptors, then the queue. -/
def runEasm (xs : List EasmInsn) (s : CModel) : Except Fault CModel := do
  let s ← loadDescs xs s
  runStream F xs s

/-- The store with its descriptor read once. -/
def dmaStore (desc : DMAParam) (s : CModel) : Except Fault CModel := do
  eclipseAssert (desc.sramAddr % 16 == 0 && desc.ddrAddr % 16 == 0)
    "dma store: address must be 16-byte aligned"
  forLoop desc.rows.toNat (dmaStoreRow desc) s

/-- An instruction applied to its own fields. -/
def runInsn : EasmInsn → CModel → Except Fault CModel
  | .dmaLoad _ p, s => dmaLoad p s
  | .dmaStore _ p, s => dmaStore p s
  | .matmul _ p, s => matmul F p s
  | .elementwise op _ p, s => elementwise F p op s
  | .act _ p, s => act F p s
  | .reduce _ p, s => reduce F p s
  | .sync, s => .ok s

end Run

/-! ## Descriptor slots -/

/-- The slot of `x` lies in `ddr_`. -/
def SlotInDdr (x : EasmInsn) : Prop :=
  x.isSync = false →
    DDR_ADDR.toNat ≤ x.desc.toNat ∧ x.desc.toNat + x.descBytes.length ≤ ddrEnd

/-- The slot of `x` holds the descriptor of `x`. -/
def OwnDesc (x : EasmInsn) (s : CModel) : Prop :=
  HoldsBytes s.ddrByte x.desc.toNat x.descBytes

/-- `a` is a byte of the slot of `x`. -/
def InSlot (x : EasmInsn) (a : Nat) : Prop :=
  x.desc.toNat ≤ a ∧ a < x.desc.toNat + x.descBytes.length

theorem OwnDesc.congr {x : EasmInsn} {s t : CModel} (h : OwnDesc x s)
    (hst : ∀ a, InSlot x a → t (.ddr a) = s (.ddr a)) : OwnDesc x t := by
  intro k hk
  rw [← h k hk]
  exact hst _ ⟨by omega, by omega⟩

end EclipseNpu.Runtime

import Mathlib.Data.UInt
import EclipseNpu.Runtime.EasmParse
import EclipseNpu.Runtime.ReduceCycles
import EclipseNpu.Runtime.Stream

/-!
# Runtime — EclipseRun

The whole of `eclipse-run` (`tools/eclipse-run.cpp`): the input files, the main
loop over the parsed lines, the simulator with its cycle count, and the output
file with what the last DMA_STORE left. The count does not depend on the data: it
is the sum of what the lines cost (`simulatorRun_eq`).
-/

namespace EclipseNpu.Runtime

open EclipseNpu.Lib

/-! ## Cycles -/

def MAC_PER_CYCLE : UInt32 := 256
def SFU_ELEM_PER_CYCLE : UInt32 := ELEM_PER_CYCLE / 4
def ACT_FIXED_OVERHEAD : UInt32 := 8

def DMAParam.cycles (desc : DMAParam) (isLoad : Bool) : UInt64 :=
  ceilDiv (dmaBursts desc isLoad * DMA_BURST_BYTES.toUInt64) DMA_BYTES_PER_CYCLE.toUInt64
    + DMA_FIXED_OVERHEAD.toUInt64

def ReduceParam.cycles (desc : ReduceParam) : UInt64 :=
  ceilDiv (desc.rows.toUInt64 * desc.cols.toUInt64) desc.elemPerCycle.toUInt64
    + desc.rows.toUInt64 * REDUCE_TREE_STEPS.toUInt64

/-- The product of M and N is taken in 32 bits. -/
def MatmulParam.cycles (desc : MatmulParam) : UInt64 :=
  ceilDiv (desc.M * desc.N).toUInt64 MAC_PER_CYCLE.toUInt64 * desc.K.toUInt64

def cyclesMatmul (s : CModel) (descPtr : UInt32) : Except Fault UInt64 := do
  let desc ← readDesc MatmulParam.load 32 descPtr s
  return desc.cycles

def EwiseParam.cycles (desc : EwiseParam) : UInt64 :=
  ceilDiv (desc.rows.toUInt64 * desc.cols.toUInt64) ELEM_PER_CYCLE.toUInt64

def cyclesElementwise (s : CModel) (descPtr : UInt32) : Except Fault UInt64 := do
  let desc ← readDesc EwiseParam.load 28 descPtr s
  return desc.cycles

/-- RELU runs on the SIMD engine, the other kinds on the special function unit. -/
def ActParam.cycles (desc : ActParam) : UInt64 :=
  if desc.kind = ActKind.RELU.toU32 then
    ceilDiv desc.n.toUInt64 ELEM_PER_CYCLE.toUInt64
  else
    ceilDiv desc.n.toUInt64 SFU_ELEM_PER_CYCLE.toUInt64 + ACT_FIXED_OVERHEAD.toUInt64

def cyclesAct (s : CModel) (descPtr : UInt32) : Except Fault UInt64 := do
  let desc ← readDesc ActParam.load 32 descPtr s
  return desc.cycles

/-- `CModel::computeCycles`. -/
def computeCycles (inst : Instruction) (s : CModel) : Except Fault UInt64 :=
  match inst.opcode with
  | .DMA_LOAD => cyclesDma s inst.descPtr true
  | .DMA_STORE => cyclesDma s inst.descPtr false
  | .MATMUL => cyclesMatmul s inst.descPtr
  | .ELEMENTWISE_ADD | .ELEMENTWISE_SUB | .ELEMENTWISE_MUL | .ELEMENTWISE_DIV =>
      cyclesElementwise s inst.descPtr
  | .ACT => cyclesAct s inst.descPtr
  | .REDUCE => cyclesReduce s inst.descPtr
  | .SYNC => .ok 0

/-- What a line costs, by its own fields. -/
def EasmInsn.cycles : EasmInsn → UInt64
  | .dmaLoad _ p => p.cycles true
  | .dmaStore _ p => p.cycles false
  | .matmul _ p => p.cycles
  | .elementwise _ _ p => p.cycles
  | .act _ p => p.cycles
  | .reduce _ p => p.cycles
  | .sync => 0

/-- **An instruction is charged for its own fields** while its slot holds them. -/
theorem computeCycles_toInstruction {x : EasmInsn} {s : CModel} (hslot : SlotInDdr x)
    (hown : OwnDesc x s) : computeCycles x.toInstruction s = .ok x.cycles := by
  cases x with
  | sync => rfl
  | dmaLoad d p =>
      have hread : readDesc DMAParam.load 24 d s = .ok p :=
        readDesc_own (x := .dmaLoad d p) hslot rfl (DMAParam.bytes_length p)
          (DMAParam.load_bytes hown)
      show cyclesDma s d true = _
      rw [cyclesDma, hread, ok_bind]
      rfl
  | dmaStore d p =>
      have hread : readDesc DMAParam.load 24 d s = .ok p :=
        readDesc_own (x := .dmaStore d p) hslot rfl (DMAParam.bytes_length p)
          (DMAParam.load_bytes hown)
      show cyclesDma s d false = _
      rw [cyclesDma, hread, ok_bind]
      rfl
  | matmul d p =>
      have hread : readDesc MatmulParam.load 32 d s = .ok p :=
        readDesc_own (x := .matmul d p) hslot rfl (MatmulParam.bytes_length p)
          (MatmulParam.load_bytes hown)
      show cyclesMatmul s d = _
      rw [cyclesMatmul, hread, ok_bind]
      rfl
  | elementwise op d p =>
      have hread : readDesc EwiseParam.load 28 d s = .ok p :=
        readDesc_own (x := .elementwise op d p) hslot rfl (EwiseParam.bytes_length p)
          (EwiseParam.load_bytes hown)
      have hop : computeCycles (EasmInsn.elementwise op d p).toInstruction s
          = cyclesElementwise s d := by cases op <;> rfl
      rw [hop, cyclesElementwise, hread, ok_bind]
      rfl
  | act d p =>
      have hread : readDesc ActParam.load 32 d s = .ok p :=
        readDesc_own (x := .act d p) hslot rfl (ActParam.bytes_length p)
          (ActParam.load_bytes hown)
      show cyclesAct s d = _
      rw [cyclesAct, hread, ok_bind]
      rfl
  | reduce d p =>
      have hread : readDesc ReduceParam.load 24 d s = .ok p :=
        readDesc_own (x := .reduce d p) hslot rfl (ReduceParam.bytes_length p)
          (ReduceParam.load_bytes hown)
      show cyclesReduce s d = _
      rw [cyclesReduce, hread, ok_bind]
      rfl

/-! ## Simulator -/

section Simulator

variable (F : Type) [Fp32 F]

/-- `Simulator::run`: an instruction is charged once it has run. -/
def simulatorRun : List Instruction → CModel × UInt64 → Except Fault (CModel × UInt64)
  | [], r => .ok r
  | inst :: queue, r => do
      let s ← exec F inst r.1
      let cycles ← computeCycles inst s
      simulatorRun queue (s, r.2 + cycles)

variable {F} {xs : List EasmInsn} {s : CModel} {total : UInt64}

/-- **The cycle count is that of the lines**, on every data, for a stream whose
stores avoid its slots. -/
theorem simulatorRun_eq (hslot : ∀ x ∈ xs, SlotInDdr x) (hown : ∀ x ∈ xs, OwnDesc x s)
    (hav : ∀ x ∈ xs, ∀ y ∈ xs, StoreAvoids x y) :
    simulatorRun F (xs.map EasmInsn.toInstruction) (s, total)
      = (fun s' => (s', total + (xs.map EasmInsn.cycles).sum)) <$> runStream F xs s := by
  induction xs generalizing s total with
  | nil =>
      show Except.ok (s, total) = .ok (s, total + 0)
      rw [UInt64.add_zero]
  | cons x xs ih =>
      have hself := List.mem_cons_self (a := x) (l := xs)
      have hrest : ∀ y ∈ xs, y ∈ x :: xs := fun y hy => List.mem_cons_of_mem x hy
      show (exec F x.toInstruction s >>= fun s' => _) = _ <$> (exec F x.toInstruction s >>= _)
      rw [exec_toInstruction (hslot x hself) (hown x hself) (hav x hself x hself)]
      cases hrun : runInsn F x s with
      | error e => rfl
      | ok s' =>
          have hown' : ∀ y ∈ x :: xs, OwnDesc y s' := fun y hy =>
            (hown y hy).runInsn (hav x hself y hy) hrun
          rw [ok_bind, ok_bind, computeCycles_toInstruction (hslot x hself) (hown' x hself),
            ok_bind]
          refine (ih (fun y hy => hslot y (hrest y hy)) (fun y hy => hown' y (hrest y hy))
            fun y hy z hz => hav y (hrest y hy) z (hrest z hz)).trans ?_
          rw [List.map_cons, List.sum_cons, UInt64.add_assoc]
          rfl

end Simulator

/-! ## main -/

/-- How `eclipse-run` stops early. -/
inductive RunError
  | usage
  | decode (e : DecodeError)
  | fault (e : Fault)
  deriving DecidableEq, Repr

/-- What the main loop keeps: the memory, the queue and the last DMA_STORE. -/
structure LoopState where
  cmodel : CModel
  queue : List Instruction
  outDdr : UInt32
  outBytes : UInt32

/-- A DMA_STORE is the new candidate for the output. -/
def EasmInsn.output : EasmInsn → UInt32 × UInt32 → UInt32 × UInt32
  | .dmaStore _ p, _ => (p.ddrAddr, p.rows * p.cols * DTYPE_SIZE)
  | _, out => out

/-- The descriptor of a line, in its slot; SYNC has none. -/
def writeDesc (x : EasmInsn) (s : CModel) : Except Fault CModel :=
  if x.isSync then .ok s else writeDDR x.desc x.descBytes s

/-- The main loop: a line is decoded, its descriptor written, the instruction
queued. -/
def mainLoop : List Insn → LoopState → Except RunError LoopState
  | [], st => .ok st
  | insn :: insns, st => do
      let x ← insn.decode.mapError .decode
      let cmodel ← (writeDesc x st.cmodel).mapError .fault
      let out := x.output (st.outDdr, st.outBytes)
      mainLoop insns ⟨cmodel, st.queue ++ [x.toInstruction], out.1, out.2⟩

/-- The output file: `outBytes` bytes from `outDdr` on, if there was a store. -/
def readOutput (outDdr outBytes : UInt32) (s : CModel) : Except Fault (Option (List UInt8)) :=
  if outBytes = 0 then .ok none
  else do
    let p ← CModel.ddr outDdr
    ddrSpan p outBytes.toNat
    return some ((List.range outBytes.toNat).map fun k => s.ddrByte (p + k))

/-- What `eclipse-run` prints and writes. -/
structure RunResult where
  totalCycles : UInt64
  output : Option (List UInt8)
  deriving DecidableEq, Repr

section Main

variable (F : Type) [Fp32 F]

/-- `main`, from the bytes of the files; it wants one input file at least. -/
def eclipseRun (easm : List Char) (files : List (List UInt8)) :
    Except RunError RunResult := do
  if files.isEmpty then throw .usage
  let insns := parseFile easm
  let s ← (writeInputs files fun _ => 0).mapError .fault
  let st ← mainLoop insns ⟨s, [], 0, 0⟩
  let r ← (simulatorRun F st.queue (st.cmodel, 0)).mapError .fault
  let output ← (readOutput st.outDdr st.outBytes r.1).mapError .fault
  return ⟨r.2, output⟩

/-- The last DMA_STORE of a stream. -/
def lastOutput (xs : List EasmInsn) (out : UInt32 × UInt32) : UInt32 × UInt32 :=
  xs.foldl (fun out x => x.output out) out

variable {F} {insns : List Insn} {xs : List EasmInsn} {st : LoopState} {s : CModel}
  {easm : List Char} {files : List (List UInt8)} {u : CModel}

theorem loadDescs_cons (x : EasmInsn) (xs : List EasmInsn) (s : CModel) :
    loadDescs (x :: xs) s = writeDesc x s >>= loadDescs xs := by
  rw [loadDescs, writeDesc]
  split
  · rfl
  · rfl

/-- A loop that decodes every line is the one that first decodes them all. -/
theorem mainLoop_eq (hdecode : decodeInsns insns = .ok xs)
    (hload : loadDescs xs st.cmodel = .ok s) :
    mainLoop insns st = .ok ⟨s, st.queue ++ xs.map EasmInsn.toInstruction,
      (lastOutput xs (st.outDdr, st.outBytes)).1,
      (lastOutput xs (st.outDdr, st.outBytes)).2⟩ := by
  induction insns generalizing xs st with
  | nil =>
      cases hdecode
      cases hload
      simp [mainLoop, lastOutput]
  | cons insn insns ih =>
      rw [decodeInsns, List.mapM_cons] at hdecode
      obtain ⟨x, hx, hdecode⟩ := bind_ok hdecode
      obtain ⟨ys, hys, hdecode⟩ := bind_ok hdecode
      cases hdecode
      rw [loadDescs_cons] at hload
      obtain ⟨t, ht, hload⟩ := bind_ok hload
      rw [mainLoop, hx]
      show (writeDesc x st.cmodel).mapError RunError.fault >>= _ = _
      rw [ht]
      refine (ih hys hload).trans ?_
      simp [lastOutput]

/-- **`eclipse-run` on a stream with slots of its own**: the run of its instructions
behind the inputs, and the bytes of the last store. -/
theorem eclipseRun_eq (hfiles : files ≠ []) (hin : writeInputs files (fun _ => 0) = .ok u)
    (hdecode : decodeInsns (parseFile easm) = .ok xs) (hslot : ∀ x ∈ xs, SlotInDdr x)
    (hapart : xs.Pairwise fun x y => ∀ a, InSlot x a → ¬ InSlot y a)
    (hav : ∀ x ∈ xs, ∀ y ∈ xs, StoreAvoids x y) :
    eclipseRun F easm files = (do
      let s ← (runEasm F xs u).mapError .fault
      let output ← (readOutput (lastOutput xs (0, 0)).1 (lastOutput xs (0, 0)).2
        s).mapError .fault
      return ⟨(xs.map EasmInsn.cycles).sum, output⟩) := by
  obtain ⟨s, hload⟩ := loadDescs_total hslot u
  have hloop := @mainLoop_eq (parseFile easm) xs ⟨u, [], 0, 0⟩ s hdecode hload
  have hsim := @simulatorRun_eq F _ xs s 0 hslot (loadDescs_ownDesc hapart hload) hav
  rw [List.nil_append] at hloop
  rw [eclipseRun, if_neg (by simpa using hfiles), hin, runEasm, hload]
  show (mainLoop (parseFile easm) ⟨u, [], 0, 0⟩ >>= _) = _
  rw [hloop]
  show ((simulatorRun F (xs.map EasmInsn.toInstruction) (s, 0)).mapError RunError.fault >>= _)
    = ((runStream F xs s).mapError RunError.fault >>= _)
  rw [hsim, UInt64.zero_add]
  cases runStream F xs s with
  | error e => rfl
  | ok t => rfl

end Main

end EclipseNpu.Runtime

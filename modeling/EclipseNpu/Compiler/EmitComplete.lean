import EclipseNpu.Compiler.Emit
import EclipseNpu.Compiler.Lowering
import Mathlib.Data.List.Basic

/-!
# Compiler — EmitComplete

What `eclipse-to-easm` writes, operation by operation. Every emitter that
returns writes exactly its instruction, except `emitDmaLoadOp`: below the
cast it knows arguments and allocs only, and returns without a line for
every other DDR buffer (a `memref.get_global`, a reshape). So a stream is
complete exactly when no executed load reads such a buffer
(`eclipseToEasm_complete_iff`).
-/

namespace EclipseNpu.Compiler

open EclipseNpu.Runtime

/-! ## What should be written -/

def BinOp.opcode : BinOp → OpCode
  | .Add => .ELEMENTWISE_ADD
  | .Sub => .ELEMENTWISE_SUB
  | .Mul => .ELEMENTWISE_MUL
  | .Div => .ELEMENTWISE_DIV

/-- The instruction an operation stands for, if it is an eclipse one. -/
def Op.opcode? : Op → Option OpCode
  | .dmaLoad .. => some .DMA_LOAD
  | .dmaStore .. => some .DMA_STORE
  | .matmul .. => some .MATMUL
  | .ewise kind .. => some kind.opcode
  | .act .. => some .ACT
  | .reduce .. => some .REDUCE
  | .sync => some .SYNC
  | .define _ | .dealloc _ | .ret _ => none

/-- The instructions a body should become, in program order. -/
def expectedOpcodes (insts : List Inst) : List OpCode :=
  insts.filterMap fun i => i.op.opcode?

/-- One instruction per executed eclipse operation, in program order. -/
def EmitsAll (module : Module) (out : List EasmInsn) : Prop :=
  out.map EasmInsn.opcode = expectedOpcodes (unrollModule module)

instance (module : Module) (out : List EasmInsn) :
    Decidable (EmitsAll module out) :=
  inferInstanceAs (Decidable (_ = _))

/-- Under its cast, or the cast under its subview, the DDR operand of a
load is a function argument or an alloc. -/
def boundSource (layout : Layout) : Value → Bool
  | .memorySpaceCast _ arg _ => arg.isBlockArg || layout.isAllocOp arg
  | .subView _ (.memorySpaceCast _ arg _) _ _ _ =>
      arg.isBlockArg || layout.isAllocOp arg
  | _ => false

/-- A load `emitDmaLoadOp` returns from without a line. -/
def Op.dropped (layout : Layout) : Op → Bool
  | .dmaLoad src _ => !boundSource layout src
  | _ => false

/-! ## One operation -/

theorem emitDmaLoadOp_eq {layout : Layout} {d : UInt32} {src dst : Value}
    {e : Emitted} (h : emitDmaLoadOp layout d src dst = some e) :
    (boundSource layout src = true ∧ ∃ p, e = emitLine (.dmaLoad d p) d)
      ∨ (boundSource layout src = false ∧ e = ([], d)) := by
  obtain ⟨sram, -, h⟩ := Option.bind_eq_some_iff.mp h
  -- only a cast, or a subview of a cast, does not abort
  match src with
  | .memorySpaceCast _ arg _ =>
      dsimp only at h
      rw [← Bool.not_or] at h
      cases harg : (arg.isBlockArg || layout.isAllocOp arg) with
      | false =>
          rw [harg, Bool.not_false, if_pos rfl] at h
          cases h
          exact .inr ⟨harg, rfl⟩
      | true =>
          rw [harg, Bool.not_true, if_neg Bool.false_ne_true] at h
          obtain ⟨addr, -, h⟩ := Option.bind_eq_some_iff.mp h
          obtain ⟨rows, -, h⟩ := Option.bind_eq_some_iff.mp h
          obtain ⟨cols, -, h⟩ := Option.bind_eq_some_iff.mp h
          cases h
          exact .inl ⟨harg, _, rfl⟩
  | .subView _ (.memorySpaceCast _ arg _) _ _ _ =>
      dsimp only at h
      rw [← Bool.not_or] at h
      cases harg : (arg.isBlockArg || layout.isAllocOp arg) with
      | false =>
          rw [harg, Bool.not_false, if_pos rfl] at h
          cases h
          exact .inr ⟨harg, rfl⟩
      | true =>
          rw [harg, Bool.not_true, if_neg Bool.false_ne_true] at h
          obtain ⟨base, -, h⟩ := Option.bind_eq_some_iff.mp h
          obtain ⟨rowOffset, -, h⟩ := Option.bind_eq_some_iff.mp h
          obtain ⟨colOffset, -, h⟩ := Option.bind_eq_some_iff.mp h
          obtain ⟨rows, -, h⟩ := Option.bind_eq_some_iff.mp h
          obtain ⟨cols, -, h⟩ := Option.bind_eq_some_iff.mp h
          obtain ⟨baseCols, -, h⟩ := Option.bind_eq_some_iff.mp h
          obtain ⟨colStride, -, h⟩ := Option.bind_eq_some_iff.mp h
          cases h
          exact .inl ⟨harg, _, rfl⟩
  | .blockArg .. | .alloc .. | .getGlobal .. | .expandShape .. => cases h
  | .subView _ (.blockArg ..) _ _ _ | .subView _ (.alloc ..) _ _ _
  | .subView _ (.getGlobal ..) _ _ _ | .subView _ (.subView ..) _ _ _
  | .subView _ (.expandShape ..) _ _ _ => cases h

theorem emitDmaStoreOp_eq {layout : Layout} {d : UInt32} {src dst : Value}
    {e : Emitted} (h : emitDmaStoreOp layout d src dst = some e) :
    ∃ p, e = emitLine (.dmaStore d p) d := by
  cases dst with
  | memorySpaceCast _ arg _ =>
      obtain ⟨_, -, h⟩ := Option.bind_eq_some_iff.mp h
      obtain ⟨addr, -, h⟩ := Option.bind_eq_some_iff.mp h
      obtain ⟨sram, -, h⟩ := Option.bind_eq_some_iff.mp h
      obtain ⟨rows, -, h⟩ := Option.bind_eq_some_iff.mp h
      obtain ⟨cols, -, h⟩ := Option.bind_eq_some_iff.mp h
      cases h
      exact ⟨_, rfl⟩
  | _ => cases h

theorem emitMatmulOp_eq {layout : Layout} {d : UInt32} {lhs rhs dst : Value}
    {acc ta tb : Bool} {e : Emitted}
    (h : emitMatmulOp layout d lhs rhs dst acc ta tb = some e) :
    ∃ p, e = emitLine (.matmul d p) d := by
  obtain ⟨dstAddr, -, h⟩ := Option.bind_eq_some_iff.mp h
  obtain ⟨lhsAddr, -, h⟩ := Option.bind_eq_some_iff.mp h
  obtain ⟨rhsAddr, -, h⟩ := Option.bind_eq_some_iff.mp h
  obtain ⟨lhs0, -, h⟩ := Option.bind_eq_some_iff.mp h
  obtain ⟨lhs1, -, h⟩ := Option.bind_eq_some_iff.mp h
  obtain ⟨rhs0, -, h⟩ := Option.bind_eq_some_iff.mp h
  obtain ⟨rhs1, -, h⟩ := Option.bind_eq_some_iff.mp h
  cases h
  exact ⟨_, rfl⟩

theorem emitEwise_eq {layout : Layout} {d : UInt32} {kind : BinOp}
    {lhs rhs dst : Value} {e : Emitted}
    (h : emitEwise layout d kind lhs rhs dst = some e) :
    ∃ p, e = emitLine (.elementwise kind.mnemonic d p) d := by
  obtain ⟨dstAddr, -, h⟩ := Option.bind_eq_some_iff.mp h
  obtain ⟨lhsAddr, -, h⟩ := Option.bind_eq_some_iff.mp h
  obtain ⟨rhsAddr, -, h⟩ := Option.bind_eq_some_iff.mp h
  obtain ⟨rows, -, h⟩ := Option.bind_eq_some_iff.mp h
  obtain ⟨cols, -, h⟩ := Option.bind_eq_some_iff.mp h
  obtain ⟨rhsRows, -, h⟩ := Option.bind_eq_some_iff.mp h
  obtain ⟨rhsCols, -, h⟩ := Option.bind_eq_some_iff.mp h
  cases h
  exact ⟨_, rfl⟩

theorem emitActOp_eq {layout : Layout} {d : UInt32} {kind : ActKind}
    {src dst : Value} {e : Emitted}
    (h : emitActOp layout d kind src dst = some e) :
    ∃ p, e = emitLine (.act d p) d := by
  obtain ⟨dstAddr, -, h⟩ := Option.bind_eq_some_iff.mp h
  obtain ⟨srcAddr, -, h⟩ := Option.bind_eq_some_iff.mp h
  cases h
  exact ⟨_, rfl⟩

theorem emitReduceOp_eq {layout : Layout} {d : UInt32} {kind : ReduceKind}
    {src dst : Value} {idx : Option Value} {e : Emitted}
    (h : emitReduceOp layout d kind src dst idx = some e) :
    ∃ p, e = emitLine (.reduce d p) d := by
  obtain ⟨dstAddr, -, h⟩ := Option.bind_eq_some_iff.mp h
  obtain ⟨srcAddr, -, h⟩ := Option.bind_eq_some_iff.mp h
  obtain ⟨rows, -, h⟩ := Option.bind_eq_some_iff.mp h
  obtain ⟨cols, -, h⟩ := Option.bind_eq_some_iff.mp h
  obtain ⟨idxAddr, -, h⟩ := Option.bind_eq_some_iff.mp h
  cases h
  exact ⟨_, rfl⟩

/-- What an emitter that returns has done: one line at the next slot, a
SYNC without a slot, or nothing. -/
inductive EmitStep (layout : Layout) (d : UInt32) (op : Op) : Emitted → Prop
  | line (x : EasmInsn) (hd : x.desc = d) (hs : x.isSync = false)
      (hop : op.opcode? = some x.opcode) (hkept : op.dropped layout = false) :
      EmitStep layout d op ([x], d + DESC_LEN)
  | sync (hop : op = .sync) : EmitStep layout d op ([.sync], d)
  | dropped (h : op.dropped layout = true) : EmitStep layout d op ([], d)
  | silent (hop : op.opcode? = none) : EmitStep layout d op ([], d)

/-- **One operation** of the walk. -/
theorem emitOp_step {layout : Layout} {d : UInt32} {op : Op} {e : Emitted}
    (h : emitOp layout d op = some e) : EmitStep layout d op e := by
  cases op with
  | dmaLoad src dst =>
      rcases emitDmaLoadOp_eq h with ⟨hb, p, rfl⟩ | ⟨hb, rfl⟩
      · exact .line _ rfl rfl rfl (by simp [Op.dropped, hb])
      · exact .dropped (by simp [Op.dropped, hb])
  | dmaStore src dst =>
      obtain ⟨p, rfl⟩ := emitDmaStoreOp_eq h
      exact .line _ rfl rfl rfl rfl
  | matmul lhs rhs dst acc ta tb =>
      obtain ⟨p, rfl⟩ := emitMatmulOp_eq h
      exact .line _ rfl rfl rfl rfl
  | ewise kind lhs rhs dst =>
      obtain ⟨p, rfl⟩ := emitEwise_eq h
      exact .line _ rfl rfl (by cases kind <;> rfl) rfl
  | act kind src dst =>
      obtain ⟨p, rfl⟩ := emitActOp_eq h
      exact .line _ rfl rfl rfl rfl
  | reduce kind src dst idx =>
      obtain ⟨p, rfl⟩ := emitReduceOp_eq h
      exact .line _ rfl rfl rfl rfl
  | sync => cases h; exact .sync rfl
  | define v => cases h; exact .silent rfl
  | dealloc v => cases h; exact .silent rfl
  | ret vs => cases h; exact .silent rfl

/-- A kept operation writes its opcode, a dropped load nothing. -/
theorem EmitStep.opcode {layout : Layout} {d : UInt32} {op : Op} {e : Emitted}
    (h : EmitStep layout d op e) :
    e.1.map EasmInsn.opcode
      = if op.dropped layout then [] else op.opcode?.toList := by
  cases h with
  | line x _ _ hop hkept => rw [hkept, hop]; rfl
  | sync hop => rw [hop]; rfl
  | dropped h => rw [h]; rfl
  | silent hop => rw [hop]; cases op.dropped layout <;> rfl

/-! ## The whole walk -/

theorem emitInsts_opcode {layout : Layout} {insts : List Inst} :
    ∀ {d : UInt32} {e : Emitted}, emitInsts layout d insts = some e →
      e.1.map EasmInsn.opcode = insts.flatMap fun i =>
        if i.op.dropped layout then [] else i.op.opcode?.toList := by
  induction insts with
  | nil => intro d e h; cases h; rfl
  | cons i is ih =>
      intro d e h
      obtain ⟨e₁, h₁, h⟩ := Option.bind_eq_some_iff.mp h
      obtain ⟨e₂, h₂, h⟩ := Option.bind_eq_some_iff.mp h
      cases h
      rw [List.map_append, (emitOp_step h₁).opcode, ih h₂, List.flatMap_cons]

/-- Each dropped load is one instruction too few. -/
theorem length_written_add_dropped (layout : Layout) (insts : List Inst) :
    (insts.flatMap fun i =>
        if i.op.dropped layout then [] else i.op.opcode?.toList).length
      + (insts.filter fun i => i.op.dropped layout).length
      = (expectedOpcodes insts).length := by
  induction insts with
  | nil => rfl
  | cons i is ih =>
      simp only [expectedOpcodes, List.flatMap_cons, List.length_append,
        List.filter_cons, List.filterMap_cons] at ih ⊢
      cases hd : i.op.dropped layout with
      | true =>
          -- only loads are dropped, and a load has an opcode
          have hop : i.op.opcode? = some .DMA_LOAD := by
            cases hi : i.op <;> rw [hi] at hd <;> first | rfl | cases hd
          simp only [hop, if_true, List.length_nil, List.length_cons]
          omega
      | false =>
          cases hop : i.op.opcode? with
          | none =>
              simp only [Bool.false_eq_true, if_false, Option.toList_none,
                List.length_nil]
              omega
          | some o =>
              simp only [Bool.false_eq_true, if_false, Option.toList_some,
                List.length_cons, List.length_nil]
              omega

theorem written_eq_of_not_dropped {layout : Layout} {insts : List Inst}
    (h : ∀ i ∈ insts, i.op.dropped layout = false) :
    (insts.flatMap fun i =>
        if i.op.dropped layout then [] else i.op.opcode?.toList)
      = expectedOpcodes insts := by
  induction insts with
  | nil => rfl
  | cons i is ih =>
      simp only [expectedOpcodes] at ih ⊢
      rw [List.flatMap_cons, List.filterMap_cons, h i (by simp),
        ih fun j hj => h j (by simp [hj])]
      cases i.op.opcode? <;> rfl

/-- **When emission is complete.** On a module that is allocated and
emitted, the stream holds one instruction per executed operation, in
program order, exactly when every executed load reads an argument or an
alloc. -/
theorem eclipseToEasm_complete_iff {option : LayoutOption} {module : Module}
    {layout : Layout} {out : List EasmInsn}
    (_halloc : eclipseAllocate option module = some layout)
    (hemit : eclipseToEasm layout module = some out) :
    EmitsAll module out ↔
      ∀ i ∈ unrollModule module, ∀ src dst, i.op = .dmaLoad src dst →
        boundSource layout src = true := by
  obtain ⟨e, he, rfl⟩ := Option.map_eq_some_iff.mp hemit
  have hout := emitInsts_opcode he
  have hlen := length_written_add_dropped layout (unrollModule module)
  constructor
  · intro hall i hi src dst hop
    rw [EmitsAll, hout] at hall
    rw [hall] at hlen
    have hnil : (unrollModule module).filter (fun i => i.op.dropped layout) = [] :=
      List.length_eq_zero_iff.mp (by omega)
    have hdrop := List.filter_eq_nil_iff.mp hnil i hi
    simpa [hop, Op.dropped] using hdrop
  · intro hbound
    rw [EmitsAll, hout]
    refine written_eq_of_not_dropped fun i hi => ?_
    cases hop : i.op with
    | dmaLoad src dst => simp [Op.dropped, hbound i hi src dst hop]
    | _ => rfl

/-! ## A constant operand

A constant bufferizes to `memref.get_global`, which is neither. -/

/-- `out = exp(x)` for the buffer `x` and a fresh 4x8 `out`. -/
def expOf (x : Value) : List (Item LinalgOp) :=
  let out : Value := .alloc ⟨1, .user 0⟩ (f16Type 4 8) (some 64)
  [.define x, .define out, .op (.exp x out), .ret [out]]

/-- The function after `convert-linalg-to-eclipse`. -/
def convertedModule (args : List (Option MemRefType))
    (items : List (Item LinalgOp)) : Module :=
  [{ args := args, body := (convertLinalgToEclipse items).getD [] }]

def expOfConstant : Module :=
  convertedModule [] (expOf (.getGlobal ⟨0, .user 0⟩ (f16Type 4 8)))

def expOfAlloc : Module :=
  convertedModule [] (expOf (.alloc ⟨0, .user 0⟩ (f16Type 4 8) (some 64)))

/-- Allocation and emission of `module` finish, and the layout and the
stream satisfy `P`. -/
def finishesWith (module : Module) (P : Layout → List EasmInsn → Bool) : Bool :=
  match eclipseAllocate .bump module with
  | some layout =>
      match eclipseToEasm layout module with
      | some out => P layout out
      | none => false
  | none => false

theorem finishesWith_spec {module : Module}
    {P : Layout → List EasmInsn → Bool} (h : finishesWith module P = true) :
    ∃ layout out, eclipseAllocate .bump module = some layout
      ∧ eclipseToEasm layout module = some out ∧ P layout out = true := by
  unfold finishesWith at h
  split at h
  · split at h
    · exact ⟨_, _, ‹_›, ‹_›, h⟩
    · cases h
  · cases h

theorem eclipseToEasm_complete_iff_expOfAlloc : ∃ layout out,
    eclipseAllocate .bump expOfAlloc = some layout
      ∧ eclipseToEasm layout expOfAlloc = some out
      ∧ EmitsAll expOfAlloc out := by
  have hrun : finishesWith expOfAlloc (fun layout _ =>
      (unrollModule expOfAlloc).all fun i => !i.op.dropped layout) = true := by
    decide +kernel
  obtain ⟨layout, out, halloc, hemit, hall⟩ := finishesWith_spec hrun
  refine ⟨layout, out, halloc, hemit,
    (eclipseToEasm_complete_iff halloc hemit).mpr fun i hi src dst hop => ?_⟩
  have := List.all_eq_true.mp hall i hi
  simpa [hop, Op.dropped] using this

/-- **A dropped load**: the stream of `exp` of a constant has no DMA_LOAD. -/
theorem emission_drops_constant_load :
    ¬ ∀ (option : LayoutOption) (module : Module) (layout : Layout)
      (out : List EasmInsn), eclipseAllocate option module = some layout →
      eclipseToEasm layout module = some out → EmitsAll module out := by
  intro h
  have hrun : finishesWith expOfConstant (fun _ out =>
      decide (¬ EmitsAll expOfConstant out)) = true := by decide +kernel
  obtain ⟨layout, out, halloc, hemit, hout⟩ := finishesWith_spec hrun
  exact of_decide_eq_true hout (h .bump expOfConstant layout out halloc hemit)

end EclipseNpu.Compiler

import EclipseNpu.Compiler.EasmText
import EclipseNpu.Compiler.Emit

/-!
# Compiler — EasmRoundTrip

The emitters as they write text (`emitLines`), against `eclipse-run` reading
it: every operation comes back with its values (`easmText_roundTrip`), and as
the instruction that `emitInsts` stands for (`emitInsts_eq_emitLines`).
-/

namespace EclipseNpu.Compiler

open EclipseNpu.Lib EclipseNpu.Runtime

/-! ## The emitters

Each writes one line, or returns with none; what they abort on is as in
`emitOp`. -/

/-- The lines written and the next descriptor address. -/
abbrev EmittedLines := List EasmLine × UInt32

def writeLine (line : EasmLine) (descAddr : UInt32) : EmittedLines :=
  ([line], descAddr + DESC_LEN)

def dmaLoadLine (layout : Layout) (descAddr : UInt32) (src dst : Value) :
    Option EmittedLines := do
  let sram ← layout.sramAddr? dst
  match src with
  | .memorySpaceCast _ arg _ =>
      if !arg.isBlockArg && !layout.isAllocOp arg then return ([], descAddr)
      let addr ← ddrBaseAddr layout arg
      let rows ← arg.type.dim? 0
      let cols ← arg.type.dim? 1
      let srcStride := cols * 2
      let dstStride := cols * 2
      return writeLine (.dmaLoad descAddr sram addr rows cols srcStride dstStride)
        descAddr
  | .subView _ (.memorySpaceCast _ arg _) offsets sizes strides =>
      if !arg.isBlockArg && !layout.isAllocOp arg then return ([], descAddr)
      let baseAddr ← ddrBaseAddr layout arg
      let rowOffset ← offsets[0]?.bind IndexValue.getV
      let colOffset ← offsets[1]?.bind IndexValue.getV
      let rows ← sizes[0]?
      let cols ← sizes[1]?
      let baseCols ← arg.type.dim? 1
      let rowSrcStride := UInt32.ofNat (baseCols * 2)
      let stride ← strides[1]?
      let colStride := UInt32.ofNat (stride * 2)
      let rowDstStride := UInt32.ofNat (cols * 2)
      let addr := baseAddr + UInt32.ofNat rowOffset * rowSrcStride
        + UInt32.ofNat colOffset * colStride
      return writeLine (.dmaLoad descAddr sram addr (UInt32.ofNat rows).toNat
        (UInt32.ofNat cols).toNat rowSrcStride.toNat rowDstStride.toNat) descAddr
  | _ => none

def dmaStoreLine (layout : Layout) (descAddr : UInt32) (src dst : Value) :
    Option EmittedLines :=
  match dst with
  | .memorySpaceCast _ arg _ => do
      guard (layout.isAllocOp arg)
      let addr ← ddrBaseAddr layout arg
      let sram ← layout.sramAddr? src
      let rows ← arg.type.dim? 0
      let cols ← arg.type.dim? 1
      let srcStride := cols * 2
      let dstStride := cols * 2
      return writeLine (.dmaStore descAddr sram addr rows cols srcStride dstStride)
        descAddr
  | _ => none

def matmulLine (layout : Layout) (descAddr : UInt32) (lhs rhs dst : Value)
    (accumulate transA transB : Bool) : Option EmittedLines := do
  let dstAddr ← layout.sramAddr? dst
  let lhsAddr ← layout.sramAddr? lhs
  let rhsAddr ← layout.sramAddr? rhs
  let lhs0 ← lhs.type.dim? 0
  let lhs1 ← lhs.type.dim? 1
  let rhs0 ← rhs.type.dim? 0
  let rhs1 ← rhs.type.dim? 1
  let M := UInt32.ofNat (if transA then lhs1 else lhs0)
  let K := UInt32.ofNat (if transA then lhs0 else lhs1)
  let N := UInt32.ofNat (if transB then rhs0 else rhs1)
  return writeLine (.matmul descAddr dstAddr lhsAddr rhsAddr M N K
    (boolWord accumulate) transA transB) descAddr

def ewiseLine (layout : Layout) (descAddr : UInt32) (kind : BinOp)
    (lhs rhs dst : Value) : Option EmittedLines := do
  let dstAddr ← layout.sramAddr? dst
  let lhsAddr ← layout.sramAddr? lhs
  let rhsAddr ← layout.sramAddr? rhs
  let rows ← dst.type.dim? 0
  let cols ← dst.type.dim? 1
  let rhsRows ← rhs.type.dim? 0
  let rhsCols ← rhs.type.dim? 1
  let blk := UInt32.ofNat rhsCols
  let stride := if rhsRows = 1 then 0 else blk
  return writeLine (.ewise kind.mnemonic descAddr dstAddr lhsAddr rhsAddr
    (UInt32.ofNat rows) (UInt32.ofNat cols) blk stride) descAddr

def actLine (layout : Layout) (descAddr : UInt32) (kind : ActKind)
    (src dst : Value) : Option EmittedLines := do
  let dstAddr ← layout.sramAddr? dst
  let srcAddr ← layout.sramAddr? src
  let n := UInt32.ofNat src.type.numElements
  return writeLine (.act descAddr dstAddr srcAddr n kind.toU32) descAddr

def reduceLine (layout : Layout) (descAddr : UInt32) (kind : ReduceKind)
    (src dst : Value) (idx : Option Value) : Option EmittedLines := do
  let dstAddr ← layout.sramAddr? dst
  let srcAddr ← layout.sramAddr? src
  let rows ← src.type.dim? 0
  let cols ← src.type.dim? 1
  match idx with
  | some idx =>
      let idxAddr ← layout.sramAddr? idx
      return writeLine (.reduce descAddr dstAddr (some idxAddr) srcAddr rows cols
        kind.toU32) descAddr
  | none =>
      return writeLine (.reduce descAddr dstAddr none srcAddr rows cols kind.toU32)
        descAddr

def opLine (layout : Layout) (descAddr : UInt32) : Op → Option EmittedLines
  | .dmaLoad src dst => dmaLoadLine layout descAddr src dst
  | .dmaStore src dst => dmaStoreLine layout descAddr src dst
  | .sync => some ([.sync], descAddr)
  | .matmul lhs rhs dst acc ta tb => matmulLine layout descAddr lhs rhs dst acc ta tb
  | .ewise kind lhs rhs dst => ewiseLine layout descAddr kind lhs rhs dst
  | .act kind src dst => actLine layout descAddr kind src dst
  | .reduce kind src dst idx => reduceLine layout descAddr kind src dst idx
  | .define _ | .dealloc _ | .ret _ => some ([], descAddr)

/-- The walk. -/
def emitLines (layout : Layout) : UInt32 → List Inst → Option EmittedLines
  | descAddr, [] => some ([], descAddr)
  | descAddr, i :: is => do
      let (xs, next) ← opLine layout descAddr i.op
      let (ys, last) ← emitLines layout next is
      return (xs ++ ys, last)

/-! ### The emitted instructions -/

/-- The instructions of the lines. -/
def EmittedLines.insns (e : EmittedLines) : Emitted := (e.1.map EasmLine.insn, e.2)

section Link

variable {layout : Layout} {descAddr : UInt32}

theorem emitDmaLoadOp_eq_line (src dst : Value) :
    emitDmaLoadOp layout descAddr src dst
      = (dmaLoadLine layout descAddr src dst).map EmittedLines.insns := by
  unfold emitDmaLoadOp dmaLoadLine
  cases layout.sramAddr? dst with
  | none => rfl
  | some sram =>
      match src with
      | .memorySpaceCast id arg m =>
          simp only [Option.bind_eq_bind, Option.bind_some]
          split
          · rfl
          · simp only [Option.map_bind, Function.comp_def]
            rfl
      | .subView id (.memorySpaceCast id' arg m) offsets sizes strides =>
          simp only [Option.bind_eq_bind, Option.bind_some]
          split
          · rfl
          · simp only [Option.map_bind, Function.comp_def, EmittedLines.insns, writeLine,
              List.map_cons, List.map_nil, EasmLine.insn, UInt32.ofNat_toNat, Option.pure_def,
              Option.map_some]
            rfl
      | .blockArg .. => rfl
      | .alloc .. => rfl
      | .getGlobal .. => rfl
      | .expandShape .. => rfl
      | .subView _ (.blockArg ..) _ _ _ => rfl
      | .subView _ (.alloc ..) _ _ _ => rfl
      | .subView _ (.getGlobal ..) _ _ _ => rfl
      | .subView _ (.subView ..) _ _ _ => rfl
      | .subView _ (.expandShape ..) _ _ _ => rfl

theorem emitMatmulOp_eq_line (lhs rhs dst : Value) (acc ta tb : Bool) :
    emitMatmulOp layout descAddr lhs rhs dst acc ta tb
      = (matmulLine layout descAddr lhs rhs dst acc ta tb).map EmittedLines.insns := by
  simp only [emitMatmulOp, matmulLine, Option.bind_eq_bind, Option.map_bind,
    Function.comp_def]
  rfl

theorem emitEwise_eq_line (kind : BinOp) (lhs rhs dst : Value) :
    emitEwise layout descAddr kind lhs rhs dst
      = (ewiseLine layout descAddr kind lhs rhs dst).map EmittedLines.insns := by
  simp only [emitEwise, ewiseLine, Option.bind_eq_bind, Option.map_bind,
    Function.comp_def]
  rfl

theorem emitActOp_eq_line (kind : ActKind) (src dst : Value) :
    emitActOp layout descAddr kind src dst
      = (actLine layout descAddr kind src dst).map EmittedLines.insns := by
  simp only [emitActOp, actLine, Option.bind_eq_bind, Option.map_bind,
    Function.comp_def]
  rfl

theorem emitDmaStoreOp_eq_line (src dst : Value) :
    emitDmaStoreOp layout descAddr src dst
      = (dmaStoreLine layout descAddr src dst).map EmittedLines.insns := by
  cases dst with
  | memorySpaceCast id arg m =>
      simp only [emitDmaStoreOp, dmaStoreLine, Option.bind_eq_bind, Option.map_bind,
        Function.comp_def]
      rfl
  | _ => rfl

/-- An index, if and only if the reduction is an ARGMAX. -/
def IndexMatches (op : Op) : Prop :=
  match op with
  | .reduce kind _ _ idx => idx.isSome = true ↔ kind = .ARGMAX
  | _ => True

theorem toU32_eq_argmax {kind : ReduceKind} :
    kind.toU32 = ReduceKind.ARGMAX.toU32 ↔ kind = .ARGMAX := by
  cases kind <;> decide

theorem emitReduceOp_eq_line {kind : ReduceKind} {src dst : Value} {idx : Option Value}
    (h : idx.isSome = true ↔ kind = .ARGMAX) :
    emitReduceOp layout descAddr kind src dst idx
      = (reduceLine layout descAddr kind src dst idx).map EmittedLines.insns := by
  cases idx with
  | some idx =>
      have hkind : kind.toU32 = ReduceKind.ARGMAX.toU32 :=
        toU32_eq_argmax.mpr (h.mp rfl)
      simp only [emitReduceOp, reduceLine, Layout.idxAddr?, Option.bind_eq_bind,
        Option.map_bind, Function.comp_def, Option.pure_def, Option.map_some,
        EmittedLines.insns, writeLine, List.map_cons, List.map_nil, EasmLine.insn,
        if_pos hkind]
      rfl
  | none =>
      have hkind : kind.toU32 ≠ ReduceKind.ARGMAX.toU32 := by
        intro hk
        cases h.mpr (toU32_eq_argmax.mp hk)
      simp only [emitReduceOp, reduceLine, Layout.idxAddr?, Option.bind_eq_bind,
        Option.map_bind, Function.comp_def, Option.pure_def, Option.map_some,
        Option.bind_some, EmittedLines.insns, writeLine, List.map_cons, List.map_nil,
        EasmLine.insn, if_neg hkind]
      rfl

/-- **The text carries what the emitter means.** -/
theorem emitOp_eq_opLine {op : Op} (h : IndexMatches op) :
    emitOp layout descAddr op = (opLine layout descAddr op).map EmittedLines.insns := by
  cases op with
  | dmaLoad src dst => exact emitDmaLoadOp_eq_line src dst
  | dmaStore src dst => exact emitDmaStoreOp_eq_line src dst
  | matmul lhs rhs dst acc ta tb => exact emitMatmulOp_eq_line lhs rhs dst acc ta tb
  | ewise kind lhs rhs dst => exact emitEwise_eq_line kind lhs rhs dst
  | act kind src dst => exact emitActOp_eq_line kind src dst
  | reduce kind src dst idx => exact emitReduceOp_eq_line h
  | _ => rfl

theorem emitInsts_eq_emitLines {is : List Inst} (h : ∀ i ∈ is, IndexMatches i.op) :
    emitInsts layout descAddr is = (emitLines layout descAddr is).map EmittedLines.insns := by
  induction is generalizing descAddr with
  | nil => rfl
  | cons i is ih =>
      rw [emitInsts, emitLines, emitOp_eq_opLine (h i (by simp))]
      cases opLine layout descAddr i.op with
      | none => rfl
      | some e =>
          have hrest := @ih e.2 fun j hj => h j (by simp [hj])
          show (emitInsts layout e.2 is).bind _ = ((emitLines layout e.2 is).bind _).map _
          rw [hrest]
          cases emitLines layout e.2 is with
          | none => rfl
          | some e' =>
              simp [EmittedLines.insns]

end Link

/-! ## The round trip -/

/-- The dimensions of the operands fit 32 bits. -/
def Op.Dims32 (op : Op) : Prop := ∀ v ∈ op.operands, ∀ n ∈ v.type.shape, n < 2 ^ 32

/-- An ARGMAX has an index; `ReduceOp::verify` asks for it. -/
def HasIndex (op : Op) : Prop :=
  match op with
  | .reduce kind _ _ idx => kind = .ARGMAX → idx.isSome = true
  | _ => True

/-- What lines of such operations are like. -/
def EasmLine.InRange : EasmLine → Prop
  | .dmaLoad _ _ _ rows cols srcStride dstStride
  | .dmaStore _ _ _ rows cols srcStride dstStride =>
      rows < 2 ^ 32 ∧ cols < 2 ^ 32 ∧ srcStride < 2 ^ 33 ∧ dstStride < 2 ^ 33
  | .reduce _ _ idx _ rows cols kind =>
      rows < 2 ^ 32 ∧ cols < 2 ^ 32
        ∧ (kind = ReduceKind.ARGMAX.toU32 → idx.isSome = true)
  | _ => True

/-- **The decoded instruction has the values of the line**: the opcode, the
descriptor address and every field. A stride is a 32-bit word. -/
def EasmLine.Carries : EasmLine → EasmInsn → Prop
  | .dmaLoad descAddr sram addr rows cols srcStride dstStride, .dmaLoad d p =>
      d = descAddr ∧ p.sramAddr = sram ∧ p.ddrAddr = addr ∧ p.rows.toNat = rows
        ∧ p.cols.toNat = cols ∧ p.srcStride.toNat = srcStride % 2 ^ 32
        ∧ p.dstStride.toNat = dstStride % 2 ^ 32
  | .dmaStore descAddr sram addr rows cols srcStride dstStride, .dmaStore d p =>
      d = descAddr ∧ p.sramAddr = sram ∧ p.ddrAddr = addr ∧ p.rows.toNat = rows
        ∧ p.cols.toNat = cols ∧ p.srcStride.toNat = srcStride % 2 ^ 32
        ∧ p.dstStride.toNat = dstStride % 2 ^ 32
  | .matmul descAddr dst lhs rhs M N K acc transA transB, .matmul d p =>
      d = descAddr ∧ p.dstAddr = dst ∧ p.lhsAddr = lhs ∧ p.rhsAddr = rhs ∧ p.M = M
        ∧ p.N = N ∧ p.K = K ∧ p.accumulate = acc ∧ p.transA = transA ∧ p.transB = transB
  | .ewise op descAddr dst lhs rhs rows cols blk stride, .elementwise op' d p =>
      op' = op ∧ d = descAddr ∧ p.dstAddr = dst ∧ p.lhsAddr = lhs ∧ p.rhsAddr = rhs
        ∧ p.rows = rows ∧ p.cols = cols ∧ p.rhsBlk = blk ∧ p.rhsStride = stride
  | .act descAddr dst src n kind, .act d p =>
      d = descAddr ∧ p.dstAddr = dst ∧ p.srcAddr = src ∧ p.n = n ∧ p.kind = kind
  | .reduce descAddr dst idx src rows cols kind, .reduce d p =>
      d = descAddr ∧ p.dstAddr = dst ∧ p.srcAddr = src ∧ p.rows.toNat = rows
        ∧ p.cols.toNat = cols ∧ p.kind = kind
        ∧ (if kind = ReduceKind.ARGMAX.toU32 then idx = some p.idxAddr
          else p.idxAddr = 0)
  | .sync, .sync => True
  | _, _ => False

theorem EasmLine.InRange.readable {line : EasmLine} (h : line.InRange) :
    line.Readable := by
  cases line with
  | dmaLoad | dmaStore =>
      obtain ⟨hrows, hcols, hsrc, hdst⟩ := h
      exact ⟨by omega, by omega, by omega, by omega⟩
  | reduce =>
      obtain ⟨hrows, hcols, hidx⟩ := h
      exact ⟨by omega, by omega, hidx⟩
  | _ => trivial

theorem EasmLine.InRange.carries {line : EasmLine} (h : line.InRange) :
    line.Carries line.insn := by
  cases line with
  | dmaLoad | dmaStore =>
      obtain ⟨hrows, hcols, -, -⟩ := h
      exact ⟨rfl, rfl, rfl, toNat_ofNat_small hrows, toNat_ofNat_small hcols,
        UInt32.toNat_ofNat', UInt32.toNat_ofNat'⟩
  | reduce descAddr dst idx src rows cols kind =>
      obtain ⟨hrows, hcols, hidx⟩ := h
      refine ⟨rfl, rfl, rfl, toNat_ofNat_small hrows, toNat_ofNat_small hcols, rfl, ?_⟩
      by_cases hkind : kind = ReduceKind.ARGMAX.toU32
      · obtain ⟨a, rfl⟩ := Option.isSome_iff_exists.mp (hidx hkind)
        rw [if_pos hkind, if_pos hkind]
        rfl
      · rw [if_neg hkind, if_neg hkind]
  | matmul => exact ⟨rfl, rfl, rfl, rfl, rfl, rfl, rfl, rfl, rfl, rfl⟩
  | ewise => exact ⟨rfl, rfl, rfl, rfl, rfl, rfl, rfl, rfl, rfl⟩
  | act => exact ⟨rfl, rfl, rfl, rfl, rfl⟩
  | sync => trivial

section InRange

variable {layout : Layout} {descAddr : UInt32} {e : EmittedLines}

theorem dim_lt {v : Value} {k n : Nat} (hv : ∀ n ∈ v.type.shape, n < 2 ^ 32)
    (h : v.type.dim? k = some n) : n < 2 ^ 32 :=
  hv n (List.mem_of_getElem? h)

theorem dmaLoadLine_inRange {src dst : Value} (hsrc : ∀ n ∈ src.type.shape, n < 2 ^ 32)
    (h : dmaLoadLine layout descAddr src dst = some e) : ∀ line ∈ e.1, line.InRange := by
  obtain ⟨sram, -, h⟩ := Option.bind_eq_some_iff.mp h
  split at h
  · split at h
    · cases h
      simp
    · obtain ⟨addr, -, h⟩ := Option.bind_eq_some_iff.mp h
      obtain ⟨rows, hrows, h⟩ := Option.bind_eq_some_iff.mp h
      obtain ⟨cols, hcols, h⟩ := Option.bind_eq_some_iff.mp h
      cases h
      have hrows := @dim_lt _ _ _ hsrc hrows
      have hcols := @dim_lt _ _ _ hsrc hcols
      intro line hline
      rw [List.mem_singleton.mp hline]
      exact ⟨hrows, hcols, by omega, by omega⟩
  · split at h
    · cases h
      simp
    · obtain ⟨addr, -, h⟩ := Option.bind_eq_some_iff.mp h
      obtain ⟨rowOffset, -, h⟩ := Option.bind_eq_some_iff.mp h
      obtain ⟨colOffset, -, h⟩ := Option.bind_eq_some_iff.mp h
      obtain ⟨rows, -, h⟩ := Option.bind_eq_some_iff.mp h
      obtain ⟨cols, -, h⟩ := Option.bind_eq_some_iff.mp h
      obtain ⟨baseCols, -, h⟩ := Option.bind_eq_some_iff.mp h
      obtain ⟨stride, -, h⟩ := Option.bind_eq_some_iff.mp h
      cases h
      intro line hline
      rw [List.mem_singleton.mp hline]
      exact ⟨UInt32.toNat_lt _, UInt32.toNat_lt _,
        (UInt32.toNat_lt _).trans (by decide), (UInt32.toNat_lt _).trans (by decide)⟩
  · cases h

theorem dmaStoreLine_inRange {src dst : Value} (hdst : ∀ n ∈ dst.type.shape, n < 2 ^ 32)
    (h : dmaStoreLine layout descAddr src dst = some e) : ∀ line ∈ e.1, line.InRange := by
  unfold dmaStoreLine at h
  split at h
  · obtain ⟨_, -, h⟩ := Option.bind_eq_some_iff.mp h
    obtain ⟨addr, -, h⟩ := Option.bind_eq_some_iff.mp h
    obtain ⟨sram, -, h⟩ := Option.bind_eq_some_iff.mp h
    obtain ⟨rows, hrows, h⟩ := Option.bind_eq_some_iff.mp h
    obtain ⟨cols, hcols, h⟩ := Option.bind_eq_some_iff.mp h
    cases h
    have hrows := @dim_lt _ _ _ hdst hrows
    have hcols := @dim_lt _ _ _ hdst hcols
    intro line hline
    rw [List.mem_singleton.mp hline]
    exact ⟨hrows, hcols, by omega, by omega⟩
  · cases h

theorem reduceLine_inRange {kind : ReduceKind} {src dst : Value} {idx : Option Value}
    (hsrc : ∀ n ∈ src.type.shape, n < 2 ^ 32)
    (hidx : kind = .ARGMAX → idx.isSome = true)
    (h : reduceLine layout descAddr kind src dst idx = some e) :
    ∀ line ∈ e.1, line.InRange := by
  obtain ⟨dstAddr, -, h⟩ := Option.bind_eq_some_iff.mp h
  obtain ⟨srcAddr, -, h⟩ := Option.bind_eq_some_iff.mp h
  obtain ⟨rows, hrows, h⟩ := Option.bind_eq_some_iff.mp h
  obtain ⟨cols, hcols, h⟩ := Option.bind_eq_some_iff.mp h
  have hrows := @dim_lt _ _ _ hsrc hrows
  have hcols := @dim_lt _ _ _ hsrc hcols
  split at h
  · obtain ⟨idxAddr, -, h⟩ := Option.bind_eq_some_iff.mp h
    cases h
    intro line hline
    rw [List.mem_singleton.mp hline]
    exact ⟨hrows, hcols, fun _ => rfl⟩
  · cases h
    intro line hline
    rw [List.mem_singleton.mp hline]
    refine ⟨hrows, hcols, fun hkind => ?_⟩
    exact absurd (hidx (toU32_eq_argmax.mp hkind)) (by decide)

/-- One operation's lines. -/
theorem opLine_inRange {op : Op} (hdims : op.Dims32) (hidx : HasIndex op)
    (h : opLine layout descAddr op = some e) : ∀ line ∈ e.1, line.InRange := by
  cases op with
  | dmaLoad src dst => exact dmaLoadLine_inRange (hdims src (by simp [Op.operands])) h
  | dmaStore src dst => exact dmaStoreLine_inRange (hdims dst (by simp [Op.operands])) h
  | reduce kind src dst idx =>
      exact reduceLine_inRange (hdims src (by simp [Op.operands])) hidx h
  | matmul lhs rhs dst acc ta tb =>
      simp only [opLine, matmulLine, Option.bind_eq_bind, Option.bind_eq_some_iff] at h
      obtain ⟨_, -, _, -, _, -, _, -, _, -, _, -, _, -, h⟩ := h
      cases h
      intro line hline
      rw [List.mem_singleton.mp hline]
      trivial
  | ewise kind lhs rhs dst =>
      simp only [opLine, ewiseLine, Option.bind_eq_bind, Option.bind_eq_some_iff] at h
      obtain ⟨_, -, _, -, _, -, _, -, _, -, _, -, _, -, h⟩ := h
      cases h
      intro line hline
      rw [List.mem_singleton.mp hline]
      trivial
  | act kind src dst =>
      simp only [opLine, actLine, Option.bind_eq_bind, Option.bind_eq_some_iff] at h
      obtain ⟨_, -, _, -, h⟩ := h
      cases h
      intro line hline
      rw [List.mem_singleton.mp hline]
      trivial
  | sync =>
      cases h
      intro line hline
      rw [List.mem_singleton.mp hline]
      trivial
  | define | dealloc | ret =>
      cases h
      simp

/-- The walk's lines. -/
theorem emitLines_inRange {is : List Inst} (hdims : ∀ i ∈ is, i.op.Dims32)
    (hidx : ∀ i ∈ is, HasIndex i.op) (h : emitLines layout descAddr is = some e) :
    ∀ line ∈ e.1, line.InRange := by
  induction is generalizing descAddr e with
  | nil =>
      cases h
      simp
  | cons i is ih =>
      obtain ⟨e₁, h₁, h⟩ := Option.bind_eq_some_iff.mp h
      obtain ⟨e₂, h₂, h⟩ := Option.bind_eq_some_iff.mp h
      cases h
      intro line hline
      rcases List.mem_append.mp hline with hline | hline
      · exact opLine_inRange (hdims i (by simp)) (hidx i (by simp)) h₁ line hline
      · exact ih (fun j hj => hdims j (by simp [hj])) (fun j hj => hidx j (by simp [hj])) h₂
          line hline

end InRange

/-- **The text is read back.** For every list of operations with 32-bit
dimensions, in which an ARGMAX has its index, `eclipse-run` decodes the emitted
text to one instruction per line, in order, with the values of the line. A
stride arrives modulo `2 ^ 32`: the emitter computes that of a whole buffer in 64
bits, and the descriptor has 32. -/
theorem easmText_roundTrip {layout : Layout} {descAddr next : UInt32} {is : List Inst}
    {lines : List EasmLine} (hemit : emitLines layout descAddr is = some (lines, next))
    (hdims : ∀ i ∈ is, i.op.Dims32) (hidx : ∀ i ∈ is, HasIndex i.op) :
    ∃ xs, decodeInsns (parseEasm (easmText lines)) = .ok xs
      ∧ List.Forall₂ EasmLine.Carries lines xs := by
  have hrange := emitLines_inRange hdims hidx hemit
  refine ⟨lines.map EasmLine.insn,
    decodeInsns_easmText fun line hline => (hrange line hline).readable, ?_⟩
  rw [List.forall₂_map_right_iff, List.forall₂_same]
  exact fun line hline => (hrange line hline).carries

/-! ### One input -/

/-- An activation and an ARGMAX over a 2x4 argument, and a store. -/
def sampleOps : List Inst :=
  let x := Value.blockArg 0 0 ⟨[2, 4], 16, DDR_MEMORY_SPACE⟩
  let y := Value.alloc ⟨0, .expand⟩ ⟨[2, 4], 16, DDR_MEMORY_SPACE⟩ none
  let a := Value.alloc ⟨0, .tileIn 0⟩ (f16Type 2 4) none
  let b := Value.alloc ⟨1, .tileIn 0⟩ (f16Type 2 1) none
  let i := Value.alloc ⟨1, .tileOut⟩ (f16Type 2 1) none
  [⟨⟨0, .load 0⟩, .dmaLoad (.memorySpaceCast ⟨0, .castIn 0⟩ x SRAM_MEMORY_SPACE) a⟩,
    ⟨⟨0, .fence 0⟩, .sync⟩, ⟨⟨0, .compute⟩, .act .RELU a a⟩,
    ⟨⟨1, .compute⟩, .reduce .ARGMAX a b (some i)⟩, ⟨⟨1, .fence 0⟩, .sync⟩,
    ⟨⟨2, .store⟩, .dmaStore a (.memorySpaceCast ⟨2, .castOut⟩ y SRAM_MEMORY_SPACE)⟩]

def sampleLayout : Layout :=
  [(.blockArg 0 0 ⟨[2, 4], 16, DDR_MEMORY_SPACE⟩, .ddr 0x40010000),
    (.alloc ⟨0, .expand⟩ ⟨[2, 4], 16, DDR_MEMORY_SPACE⟩ none, .ddr 0x40020000),
    (.alloc ⟨0, .tileIn 0⟩ (f16Type 2 4) none, .sram 0x10000000),
    (.alloc ⟨1, .tileIn 0⟩ (f16Type 2 1) none, .sram 0x10000020),
    (.alloc ⟨1, .tileOut⟩ (f16Type 2 1) none, .sram 0x10000040)]

def sampleLines : List EasmLine :=
  [.dmaLoad 0x40000100 0x10000000 0x40010000 2 4 8 8, .sync,
    .act 0x40000140 0x10000000 0x10000000 8 0,
    .reduce 0x40000180 0x10000020 (some 0x10000040) 0x10000000 2 4 3, .sync,
    .dmaStore 0x400001C0 0x10000000 0x40020000 2 4 8 8]

theorem easmText_roundTrip_sample :
    ∃ xs, decodeInsns (parseEasm (easmText sampleLines)) = .ok xs
      ∧ List.Forall₂ EasmLine.Carries sampleLines xs :=
  easmText_roundTrip (show emitLines sampleLayout 0x40000100 sampleOps
      = some (sampleLines, 0x40000200) by decide +kernel)
    (by simp [sampleOps, Op.Dims32, Op.operands, Value.type, f16Type])
    (by simp [sampleOps, HasIndex])

/-- **Two values that do not come back**: the stride of a row of `2 ^ 31`
elements, and the index of an ARGMAX that has none. -/
theorem easmText_not_exact :
    (∃ layout src dst,
      emitLines layout 0x40000100 [⟨⟨0, .load 0⟩, .dmaLoad src dst⟩]
          = some ([.dmaLoad 0x40000100 0x10000000 0x40010000 1 2147483648 4294967296
            4294967296], 0x40000140)
        ∧ (Op.dmaLoad src dst).Dims32)
      ∧ decodeInsns (parseEasm (easmText [.dmaLoad 0x40000100 0x10000000 0x40010000 1
          2147483648 4294967296 4294967296]))
        = .ok [.dmaLoad 0x40000100 ⟨0x10000000, 0x40010000, 1, 2147483648, 0, 0⟩]
      ∧ (∃ layout src dst,
        emitLines layout 0x40000100 [⟨⟨0, .compute⟩, .reduce .ARGMAX src dst none⟩]
          = some ([.reduce 0x40000100 0x10000020 none 0x10000000 2 4 3], 0x40000140))
      ∧ decodeInsns (parseEasm (easmText [.reduce 0x40000100 0x10000020 none 0x10000000
          2 4 3])) = .error (.outOfRange "idx") := by
  refine ⟨⟨[(.blockArg 0 0 ⟨[1, 2147483648], 16, DDR_MEMORY_SPACE⟩, .ddr 0x40010000),
      (.alloc ⟨0, .tileIn 0⟩ (f16Type 1 2147483648) none, .sram 0x10000000)],
    .memorySpaceCast ⟨0, .castIn 0⟩
      (.blockArg 0 0 ⟨[1, 2147483648], 16, DDR_MEMORY_SPACE⟩) SRAM_MEMORY_SPACE,
    .alloc ⟨0, .tileIn 0⟩ (f16Type 1 2147483648) none, by decide +kernel,
    by simp [Op.Dims32, Op.operands, Value.type, f16Type]⟩, by decide +kernel,
    ⟨sampleLayout, .alloc ⟨0, .tileIn 0⟩ (f16Type 2 4) none,
      .alloc ⟨1, .tileIn 0⟩ (f16Type 2 1) none, by decide +kernel⟩, by decide +kernel⟩

end EclipseNpu.Compiler

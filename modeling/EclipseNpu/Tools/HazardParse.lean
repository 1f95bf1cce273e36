import EclipseNpu.Lib.PyText
import EclipseNpu.Runtime.EasmParse

/-!
# Tools — HazardParse

How the hazard checker reads an `.easm` file (`tools/hazard_check.py`): lines
to an opcode and `key=value` fields (`parseEasm`), and these to the numbers it
checks (`parseInstruction`). What it does with the numbers is in
`HazardCheck`.

A text is a list of Unicode characters: Python refuses a file that is not
UTF-8.
-/

namespace EclipseNpu.Tools.HazardParse

open EclipseNpu.Lib EclipseNpu.Runtime

/-! ## parse_easm -/

/-- `startswith("#")` or `startswith("//")`. -/
def isComment (s : List Char) : Bool :=
  "#".toList.isPrefixOf s || "//".toList.isPrefixOf s

/-- A part without `=` is skipped. -/
def addPart (insn : Insn) (part : List Char) : Insn :=
  if '=' ∈ part then
    insn.setField (part.takeWhile (· != '=')) (part.dropWhile (· != '=')).tail
  else insn

/-- The opcode and the fields of a line, if it has any. -/
def parseLine (line : List Char) : Option Insn :=
  if pyStrip line = [] ∨ isComment (pyStrip line) then none
  else match pySplit (pyStrip line) with
    | [] => none
    | op :: parts => some (parts.foldl addPart ⟨op, fun _ => none⟩)

def parseEasm (text : List Char) : List Insn := (pyLines text).filterMap parseLine

/-! ## parse_instruction -/

/-- `parse_hex(fields[key])`; `none` is a `KeyError` or a `ValueError`. -/
def address (f : Insn) (key : String) : Option Int := do
  pyInt0 (← f.fields key.toList)

/-- `int(fields[key])`. -/
def integer (f : Insn) (key : String) : Option Int := do
  pyInt (← f.fields key.toList)

structure DmaNumbers where
  sram : Int
  ddr : Int
  rows : Int
  cols : Int
  srcStride : Int
  dstStride : Int
  deriving DecidableEq, Repr

structure MatmulNumbers where
  dst : Int
  lhs : Int
  rhs : Int
  m : Int
  n : Int
  k : Int
  acc : Int
  deriving DecidableEq, Repr

structure EwiseNumbers where
  dst : Int
  lhs : Int
  rhs : Int
  rows : Int
  cols : Int
  blk : Int
  stride : Int
  deriving DecidableEq, Repr

structure ActNumbers where
  dst : Int
  src : Int
  n : Int
  deriving DecidableEq, Repr

/-- Only ARGMAX has an `idx`. -/
structure ReduceNumbers where
  dst : Int
  src : Int
  rows : Int
  cols : Int
  kind : Int
  idx : Option Int
  deriving DecidableEq, Repr

/-- One instruction with the numbers the checker reads. -/
inductive CheckedInsn
  | dmaLoad (p : DmaNumbers)
  | dmaStore (p : DmaNumbers)
  | matmul (p : MatmulNumbers)
  | elementwise (op : EwiseOp) (p : EwiseNumbers)
  | act (p : ActNumbers)
  | reduce (p : ReduceNumbers)
  | sync
  deriving DecidableEq, Repr

def dmaNumbers (f : Insn) : Option DmaNumbers := do
  let sram ← address f "sram"
  let ddr ← address f "ddr"
  let rows ← integer f "rows"
  let cols ← integer f "cols"
  let srcStride ← integer f "srcStride"
  let dstStride ← integer f "dstStride"
  return { sram, ddr, rows, cols, srcStride, dstStride }

def matmulNumbers (f : Insn) : Option MatmulNumbers := do
  let dst ← address f "dst"
  let lhs ← address f "lhs"
  let rhs ← address f "rhs"
  let m ← integer f "M"
  let n ← integer f "N"
  let k ← integer f "K"
  let acc ← integer f "acc"
  return { dst, lhs, rhs, m, n, k, acc }

def ewiseNumbers (f : Insn) : Option EwiseNumbers := do
  let dst ← address f "dst"
  let lhs ← address f "lhs"
  let rhs ← address f "rhs"
  let rows ← integer f "rows"
  let cols ← integer f "cols"
  let blk ← integer f "blk"
  let stride ← integer f "stride"
  return { dst, lhs, rhs, rows, cols, blk, stride }

def actNumbers (f : Insn) : Option ActNumbers := do
  let dst ← address f "dst"
  let src ← address f "src"
  let n ← integer f "n"
  return { dst, src, n }

/-- `if kind == 3`. -/
def argmaxIdx (f : Insn) (kind : Int) : Option (Option Int) :=
  if kind = 3 then some <$> address f "idx" else some none

def reduceNumbers (f : Insn) : Option ReduceNumbers := do
  let dst ← address f "dst"
  let src ← address f "src"
  let rows ← integer f "rows"
  let cols ← integer f "cols"
  let kind ← integer f "kind"
  let idx ← argmaxIdx f kind
  return { dst, src, rows, cols, kind, idx }

/-- `none` is an exception, or an unknown opcode. -/
def parseInstruction (f : Insn) : Option CheckedInsn :=
  if f.op = "DMA_LOAD".toList then .dmaLoad <$> dmaNumbers f
  else if f.op = "DMA_STORE".toList then .dmaStore <$> dmaNumbers f
  else if f.op = "MATMUL".toList then .matmul <$> matmulNumbers f
  else if f.op = "ELEMENTWISE_ADD".toList ∨ f.op = "ELEMENTWISE_SUB".toList
      ∨ f.op = "ELEMENTWISE_MUL".toList ∨ f.op = "ELEMENTWISE_DIV".toList then
    .elementwise (ewiseOpCode f.op) <$> ewiseNumbers f
  else if f.op = "ACT".toList then .act <$> actNumbers f
  else if f.op = "REDUCE".toList then .reduce <$> reduceNumbers f
  else if f.op = "SYNC".toList then some .sync
  else none

/-- What the checker reads from a file it accepts. -/
def readEasm (text : List Char) : Option (List CheckedInsn) :=
  (parseEasm text).mapM parseInstruction

/-! ## The tokens of a line -/

/-- A line from its tokens: no tokens are a blank line, and a comment starts
its first one. -/
def ofTokens : List (List Char) → Option Insn
  | [] => none
  | op :: parts =>
      if isComment op then none else some (parts.foldl addPart ⟨op, fun _ => none⟩)

theorem isComment_takeWhile (s : List Char) :
    isComment (s.takeWhile fun c => !pyIsSpace c) = isComment s := by
  rw [isComment, isComment, isPrefixOf_takeWhile (by decide),
    isPrefixOf_takeWhile (by decide)]

/-- A stripped line starts with its first token. -/
theorem pySplit_of_pyStrip {line s : List Char} {c : Char} (h : pyStrip line = c :: s) :
    pySplit line = (c :: s).takeWhile (fun c => !pyIsSpace c)
      :: pySplit (s.dropWhile fun c => !pyIsSpace c) := by
  have hc := pyStrip_head h
  have hopen : pySplit (c :: s) = wordsFrom pyIsSpace [c] s := by
    rw [pySplit, wordsFrom, hc]
    rfl
  rw [← pySplit_pyStrip, h, hopen, wordsFrom_open (by simp),
    List.takeWhile_cons_of_pos (by simp [hc])]
  rfl

theorem isComment_pyStrip (line : List Char) :
    isComment (pyStrip line) = (pySplit line).head?.any isComment := by
  cases h : pyStrip line with
  | nil =>
      rw [← pySplit_pyStrip, h]
      rfl
  | cons c s =>
      rw [pySplit_of_pyStrip h, List.head?_cons, Option.any_some, isComment_takeWhile]

/-- **A line is read from its tokens.** -/
theorem parseLine_eq (line : List Char) : parseLine line = ofTokens (pySplit line) := by
  rw [parseLine, pySplit_pyStrip]
  cases h : pyStrip line with
  | nil =>
      rw [← pySplit_pyStrip, h]
      rfl
  | cons c s =>
      rw [pySplit_of_pyStrip h, ofTokens, isComment_takeWhile]
      simp

end EclipseNpu.Tools.HazardParse

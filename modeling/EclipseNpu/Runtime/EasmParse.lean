import EclipseNpu.Lib.Loop
import EclipseNpu.Lib.Text
import EclipseNpu.Runtime.Easm

/-!
# Runtime — EasmParse

How `eclipse-run` reads an `.easm` file (`tools/eclipse-run.cpp`): lines to
an opcode and `key=value` fields (`parseEasm`), and these to the descriptor
and the queue entry of one instruction (`Insn.decode`). What the main loop
then does with the descriptors is in `Easm`.

A text has one character per byte. `parseEasm` is the reader of a text without
NUL characters, `parseFile` that of every file.
-/

namespace EclipseNpu.Runtime

open EclipseNpu.Lib

def hexVal (s : List Char) : UInt32 := UInt32.ofNat (strtoul s)

def intVal (s : List Char) : Int := strtol s

/-- The four elementwise instructions share `EwiseParam`. -/
def ewiseOpCode (name : List Char) : EwiseOp :=
  if name = "ELEMENTWISE_SUB".toList then .sub
  else if name = "ELEMENTWISE_MUL".toList then .mul
  else if name = "ELEMENTWISE_DIV".toList then .div
  else .add

/-! ## parseEasm -/

structure Insn where
  op : List Char
  /-- `std::map::find`. -/
  fields : List Char → Option (List Char)

/-- The separators of the tokens of a line. -/
def isBlank (c : Char) : Bool := c == ' ' || c == '\t'

/-- What is cut off the end of a line. -/
def isTrailing (c : Char) : Bool := c == ' ' || c == '\t' || c == '\r' || c == '\n'

/-- `fields[key] = value`. -/
def Insn.setField (insn : Insn) (key value : List Char) : Insn :=
  { insn with fields := fun k => if k = key then some value else insn.fields k }

/-- The first token is the opcode; a later one without `=` is skipped. -/
def Insn.addToken (insn : Insn) (tok : List Char) : Insn :=
  if insn.op = [] then { insn with op := tok }
  else if '=' ∈ tok then
    insn.setField (tok.takeWhile (· != '=')) (tok.dropWhile (· != '=')).tail
  else insn

def parseLine (line : List Char) : Insn :=
  (wordsFrom isBlank [] (line.rdropWhile isTrailing)).foldl Insn.addToken
    ⟨[], fun _ => none⟩

/-- The lines come from `fgets` with a buffer of 4096 characters. -/
def parseEasm (text : List Char) : List Insn :=
  ((fgetsLines 4096 [] text).filter fun line =>
    !(line.rdropWhile isTrailing).isEmpty).map parseLine

/-- `std::string s(line)` ends at the first NUL character. -/
def cString (line : List Char) : List Char := line.takeWhile (· != Char.ofNat 0)

/-- One turn of `parseEasm`: a blank line has no instruction. -/
def readLine (line : List Char) : Option Insn :=
  if (cString line).rdropWhile isTrailing = [] then none
  else some (parseLine (cString line))

/-- The source's `parseEasm` on any file. -/
def parseFile (bytes : List Char) : List Insn :=
  (fgetsLines 4096 [] bytes).filterMap readLine

/-! ## The main loop -/

/-- `std::map::at` throws on a missing key; an unknown opcode ends the
program. -/
inductive DecodeError
  | outOfRange (key : String)
  | unknownOpcode (op : List Char)
  deriving DecidableEq, Repr

def Insn.at (f : Insn) (key : String) : Except DecodeError (List Char) :=
  match f.fields key.toList with
  | some value => .ok value
  | none => .error (.outOfRange key)

/-- `uint32_t = hexVal(f.at(key))`. -/
def Insn.hexAt (f : Insn) (key : String) : Except DecodeError UInt32 :=
  hexVal <$> f.at key

/-- `uint32_t = intVal(f.at(key))`. -/
def Insn.intAt (f : Insn) (key : String) : Except DecodeError UInt32 :=
  (fun s => UInt32.ofInt (intVal s)) <$> f.at key

/-- `intVal(f.at(key)) != 0`. -/
def Insn.flagAt (f : Insn) (key : String) : Except DecodeError Bool :=
  (fun s => intVal s != 0) <$> f.at key

def Insn.dmaParam (f : Insn) : Except DecodeError DMAParam := do
  let sramAddr ← f.hexAt "sram"
  let ddrAddr ← f.hexAt "ddr"
  let rows ← f.intAt "rows"
  let cols ← f.intAt "cols"
  let srcStride ← f.intAt "srcStride"
  let dstStride ← f.intAt "dstStride"
  return { sramAddr, ddrAddr, rows, cols, srcStride, dstStride }

def Insn.matmulParam (f : Insn) : Except DecodeError MatmulParam := do
  let dstAddr ← f.hexAt "dst"
  let rhsAddr ← f.hexAt "rhs"
  let lhsAddr ← f.hexAt "lhs"
  let M ← f.intAt "M"
  let N ← f.intAt "N"
  let K ← f.intAt "K"
  let accumulate ← f.intAt "acc"
  let transA ← f.flagAt "ta"
  let transB ← f.flagAt "tb"
  return { dstAddr, rhsAddr, lhsAddr, M, K, N, accumulate, transA, transB }

def Insn.ewiseParam (f : Insn) : Except DecodeError EwiseParam := do
  let dstAddr ← f.hexAt "dst"
  let rhsAddr ← f.hexAt "rhs"
  let lhsAddr ← f.hexAt "lhs"
  let rows ← f.intAt "rows"
  let cols ← f.intAt "cols"
  let rhsBlk ← f.intAt "blk"
  let rhsStride ← f.intAt "stride"
  return { dstAddr, rhsAddr, lhsAddr, rows, cols, rhsBlk, rhsStride }

def Insn.actParam (f : Insn) : Except DecodeError ActParam := do
  let dstAddr ← f.hexAt "dst"
  let srcAddr ← f.hexAt "src"
  let n ← f.intAt "n"
  let kind ← f.intAt "kind"
  return { dstAddr, srcAddr, n, kind }

/-- Only ARGMAX reads `idx`. -/
def Insn.reduceParam (f : Insn) : Except DecodeError ReduceParam := do
  let dstAddr ← f.hexAt "dst"
  let srcAddr ← f.hexAt "src"
  let rows ← f.intAt "rows"
  let cols ← f.intAt "cols"
  let kind ← f.intAt "kind"
  let idxAddr ← if kind = ReduceKind.ARGMAX.toU32 then f.hexAt "idx" else .ok 0
  return { dstAddr, idxAddr, srcAddr, rows, cols, kind }

/-- One turn of the main loop: the descriptor that is written and the
instruction that is queued. -/
def Insn.decode (f : Insn) : Except DecodeError EasmInsn := do
  if f.op = "SYNC".toList then return .sync
  let descAddr ← f.hexAt "desc"
  if f.op = "DMA_LOAD".toList ∨ f.op = "DMA_STORE".toList then
    let desc ← f.dmaParam
    return if f.op = "DMA_LOAD".toList then .dmaLoad descAddr desc
      else .dmaStore descAddr desc
  else if f.op = "MATMUL".toList then
    return .matmul descAddr (← f.matmulParam)
  else if f.op = "ELEMENTWISE_ADD".toList ∨ f.op = "ELEMENTWISE_SUB".toList
      ∨ f.op = "ELEMENTWISE_MUL".toList ∨ f.op = "ELEMENTWISE_DIV".toList then
    return .elementwise (ewiseOpCode f.op) descAddr (← f.ewiseParam)
  else if f.op = "ACT".toList then
    return .act descAddr (← f.actParam)
  else if f.op = "REDUCE".toList then
    return .reduce descAddr (← f.reduceParam)
  else
    throw (.unknownOpcode f.op)

/-- The main loop over the parsed lines. -/
def decodeInsns (insns : List Insn) : Except DecodeError (List EasmInsn) :=
  insns.mapM Insn.decode

/-- What a file has queued when the main loop is through with it. -/
def readFile (bytes : List Char) (s : CModel) : Option (List EasmInsn) := do
  let xs ← (decodeInsns (parseFile bytes)).toOption
  let _ ← (loadDescs xs s).toOption
  return xs

/-! ### Lines -/

theorem cString_eq_self {line : List Char} (h : Char.ofNat 0 ∉ line) :
    cString line = line := by
  rw [cString, List.takeWhile_eq_self_iff]
  intro c hc
  rw [bne_iff_ne]
  rintro rfl
  exact h hc

theorem readLine_eq {line : List Char} (h : Char.ofNat 0 ∉ line) :
    readLine line = if line.rdropWhile isTrailing = [] then none
      else some (parseLine line) := by
  rw [readLine, cString_eq_self h]

/-- Without NUL characters a line is what `fgets` read. -/
theorem parseFile_eq {bytes : List Char} (h : Char.ofNat 0 ∉ bytes) :
    parseFile bytes = parseEasm bytes := by
  have hlines : ∀ line ∈ fgetsLines 4096 [] bytes, Char.ofNat 0 ∉ line := by
    intro line hline hnul
    rcases mem_of_fgetsLines hline hnul with hnul | hnul
    · cases hnul
    · exact h hnul
  rw [parseFile, parseEasm]
  generalize fgetsLines 4096 [] bytes = lines at hlines
  induction lines with
  | nil => rfl
  | cons line lines ih =>
      have ih := ih fun l hl => hlines l (List.mem_cons_of_mem line hl)
      rw [List.filterMap_cons, readLine_eq (hlines line List.mem_cons_self), ih]
      by_cases hblank : line.rdropWhile isTrailing = []
      · simp [hblank]
      · simp [hblank]

theorem readLine_newline (line : List Char) : readLine (line ++ ['\n']) = readLine line := by
  have htrim : (line ++ ['\n']).rdropWhile isTrailing = line.rdropWhile isTrailing :=
    List.rdropWhile_concat_pos isTrailing line '\n' (by decide)
  by_cases hnul : Char.ofNat 0 ∈ line
  · -- the newline is cut off
    have hcut : cString (line ++ ['\n']) = cString line := by
      rw [cString, List.takeWhile_append, if_neg]
      · rfl
      · intro hlen
        have hself := (List.takeWhile_prefix _).eq_of_length hlen
        have hne := List.takeWhile_eq_self_iff.mp hself _ hnul
        rw [bne_self_eq_false] at hne
        cases hne
    rw [readLine, readLine, hcut]
  · rw [readLine_eq hnul, readLine_eq (by simpa using hnul), htrim, parseLine, parseLine,
      htrim]

/-- **A file with lines that fit the buffer** is read line by line. -/
theorem parseFile_words {bytes : List Char}
    (hlen : ∀ w ∈ wordsFrom (· == '\n') [] bytes, w.length < 4096) :
    parseFile bytes = (wordsFrom (· == '\n') [] bytes).filterMap readLine :=
  fgetsLines_filterMap readLine_newline rfl hlen

/-! ### One opcode at a time -/

section Opcodes

variable {fields : List Char → Option (List Char)}

theorem decode_sync : Insn.decode ⟨"SYNC".toList, fields⟩ = .ok .sync := rfl

theorem decode_dmaLoad : Insn.decode ⟨"DMA_LOAD".toList, fields⟩ = (do
    let descAddr ← Insn.hexAt ⟨"DMA_LOAD".toList, fields⟩ "desc"
    let desc ← Insn.dmaParam ⟨"DMA_LOAD".toList, fields⟩
    return .dmaLoad descAddr desc) := rfl

theorem decode_dmaStore : Insn.decode ⟨"DMA_STORE".toList, fields⟩ = (do
    let descAddr ← Insn.hexAt ⟨"DMA_STORE".toList, fields⟩ "desc"
    let desc ← Insn.dmaParam ⟨"DMA_STORE".toList, fields⟩
    return .dmaStore descAddr desc) := rfl

theorem decode_matmul : Insn.decode ⟨"MATMUL".toList, fields⟩ = (do
    let descAddr ← Insn.hexAt ⟨"MATMUL".toList, fields⟩ "desc"
    let desc ← Insn.matmulParam ⟨"MATMUL".toList, fields⟩
    return .matmul descAddr desc) := rfl

theorem decode_act : Insn.decode ⟨"ACT".toList, fields⟩ = (do
    let descAddr ← Insn.hexAt ⟨"ACT".toList, fields⟩ "desc"
    let desc ← Insn.actParam ⟨"ACT".toList, fields⟩
    return .act descAddr desc) := rfl

theorem decode_reduce : Insn.decode ⟨"REDUCE".toList, fields⟩ = (do
    let descAddr ← Insn.hexAt ⟨"REDUCE".toList, fields⟩ "desc"
    let desc ← Insn.reduceParam ⟨"REDUCE".toList, fields⟩
    return .reduce descAddr desc) := rfl

end Opcodes

end EclipseNpu.Runtime

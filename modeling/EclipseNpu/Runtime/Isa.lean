import Mathlib.Tactic.Common

/-!
# Runtime — Isa

The instruction set as the runtime sees it (`runtime/include/eclipse_isa.h`):
the memory map, the opcodes and the descriptor structs, with the byte
layout the structs have in the command queue region (little-endian words,
`bool` fields one byte each, padding zeroed by `desc{}`).
-/

namespace EclipseNpu.Runtime

/-! ## Memory map and data sizes -/

def SRAM_ADDR : UInt32 := 0x10000000
def DDR_ADDR : UInt32 := 0x40000000
def SRAM_SIZE : UInt32 := 0x80000
def DDR_SIZE : UInt32 := 0x80000000
def DTYPE_SIZE : UInt32 := 2

/-- One past the last SRAM address, as an unbounded integer. -/
def sramEnd : Nat := SRAM_ADDR.toNat + SRAM_SIZE.toNat

/-- One past the last DDR address, as an unbounded integer. -/
def ddrEnd : Nat := DDR_ADDR.toNat + DDR_SIZE.toNat

@[simp] theorem SRAM_ADDR_toNat : SRAM_ADDR.toNat = 0x10000000 := rfl
@[simp] theorem DDR_ADDR_toNat : DDR_ADDR.toNat = 0x40000000 := rfl
@[simp] theorem DTYPE_SIZE_toNat : DTYPE_SIZE.toNat = 2 := rfl
@[simp] theorem sramEnd_eq : sramEnd = 0x10080000 := rfl
@[simp] theorem ddrEnd_eq : ddrEnd = 0xC0000000 := rfl

/-! ## Opcodes and kinds -/

inductive OpCode
  | DMA_LOAD
  | DMA_STORE
  | MATMUL
  | ELEMENTWISE_ADD
  | ELEMENTWISE_SUB
  | ELEMENTWISE_MUL
  | ELEMENTWISE_DIV
  | ACT
  | REDUCE
  | SYNC
  deriving DecidableEq, Repr

inductive ActKind
  | RELU
  | EXP
  | RSQRT
  | SILU
  deriving DecidableEq, Repr

/-- The enumerators in declaration order; any other word is no kind. -/
def ActKind.ofU32? (v : UInt32) : Option ActKind :=
  if v = 0 then some .RELU
  else if v = 1 then some .EXP
  else if v = 2 then some .RSQRT
  else if v = 3 then some .SILU
  else none

def ActKind.toU32 : ActKind → UInt32
  | .RELU => 0
  | .EXP => 1
  | .RSQRT => 2
  | .SILU => 3

@[simp] theorem ActKind.ofU32?_toU32 (k : ActKind) :
    ActKind.ofU32? k.toU32 = some k := by cases k <;> rfl

inductive ReduceKind
  | MAX
  | SUM
  | SQUARE_SUM
  | ARGMAX
  deriving DecidableEq, Repr

def ReduceKind.ofU32? (v : UInt32) : Option ReduceKind :=
  if v = 0 then some .MAX
  else if v = 1 then some .SUM
  else if v = 2 then some .SQUARE_SUM
  else if v = 3 then some .ARGMAX
  else none

def ReduceKind.toU32 : ReduceKind → UInt32
  | .MAX => 0
  | .SUM => 1
  | .SQUARE_SUM => 2
  | .ARGMAX => 3

@[simp] theorem ReduceKind.ofU32?_toU32 (k : ReduceKind) :
    ReduceKind.ofU32? k.toU32 = some k := by cases k <;> rfl

theorem ReduceKind.toU32_inj {k k' : ReduceKind} (h : k.toU32 = k'.toU32) : k = k' := by
  have hsome := congrArg ReduceKind.ofU32? h
  rw [ReduceKind.ofU32?_toU32, ReduceKind.ofU32?_toU32] at hsome
  exact Option.some.inj hsome

theorem ReduceKind.ofU32?_eq_some {v : UInt32} {k : ReduceKind}
    (h : ReduceKind.ofU32? v = some k) : v = k.toU32 := by
  unfold ReduceKind.ofU32? at h
  split_ifs at h with h0 h1 h2 h3 <;> cases h <;> assumption

/-- A queue entry: the opcode and the DDR address of its descriptor. -/
structure Instruction where
  opcode : OpCode
  descPtr : UInt32
  deriving DecidableEq, Repr

/-! ## Descriptors -/

structure DMAParam where
  sramAddr : UInt32
  ddrAddr : UInt32
  rows : UInt32
  cols : UInt32
  srcStride : UInt32
  dstStride : UInt32
  deriving DecidableEq, Repr

structure MatmulParam where
  dstAddr : UInt32
  rhsAddr : UInt32
  lhsAddr : UInt32
  M : UInt32
  K : UInt32
  N : UInt32
  accumulate : UInt32
  transA : Bool
  transB : Bool
  deriving DecidableEq, Repr

structure EwiseParam where
  dstAddr : UInt32
  rhsAddr : UInt32
  lhsAddr : UInt32
  rows : UInt32
  cols : UInt32
  rhsBlk : UInt32
  rhsStride : UInt32
  deriving DecidableEq, Repr

/-- `kind` is the raw word; the `extra` union after it is never read. -/
structure ActParam where
  dstAddr : UInt32
  srcAddr : UInt32
  n : UInt32
  kind : UInt32
  deriving DecidableEq, Repr

structure ReduceParam where
  dstAddr : UInt32
  idxAddr : UInt32
  srcAddr : UInt32
  rows : UInt32
  cols : UInt32
  kind : UInt32
  deriving DecidableEq, Repr

/-! ## Little-endian words -/

/-- The four bytes `storeU32` writes. -/
def u32Bytes (x : UInt32) : List UInt8 :=
  [UInt8.ofNat x.toNat, UInt8.ofNat (x.toNat / 256),
    UInt8.ofNat (x.toNat / 65536), UInt8.ofNat (x.toNat / 16777216)]

/-- `loadU32` on the four bytes at `p`. -/
def loadU32 (rd : Nat → UInt8) (p : Nat) : UInt32 :=
  UInt32.ofNat ((rd p).toNat + 256 * (rd (p + 1)).toNat
    + 65536 * (rd (p + 2)).toNat + 16777216 * (rd (p + 3)).toNat)

/-- The two bytes `storeU16` writes. -/
def u16Bytes (x : UInt16) : List UInt8 :=
  [UInt8.ofNat x.toNat, UInt8.ofNat (x.toNat / 256)]

/-- `loadU16` on the two bytes at `p`. -/
def loadU16 (rd : Nat → UInt8) (p : Nat) : UInt16 :=
  UInt16.ofNat ((rd p).toNat + 256 * (rd (p + 1)).toNat)

/-- The bytes of `bs` stand at `p`, `p + 1`, … -/
def HoldsBytes (rd : Nat → UInt8) (p : Nat) (bs : List UInt8) : Prop :=
  ∀ k (h : k < bs.length), rd (p + k) = bs[k]

theorem HoldsBytes.append_left {rd : Nat → UInt8} {p : Nat}
    {bs cs : List UInt8} (h : HoldsBytes rd p (bs ++ cs)) :
    HoldsBytes rd p bs := by
  intro k hk
  rw [h k (by rw [List.length_append]; omega), List.getElem_append_left hk]

theorem HoldsBytes.append_right {rd : Nat → UInt8} {p : Nat}
    {bs cs : List UInt8} (h : HoldsBytes rd p (bs ++ cs)) :
    HoldsBytes rd (p + bs.length) cs := by
  intro k hk
  have := h (bs.length + k) (by rw [List.length_append]; omega)
  rw [Nat.add_assoc, this, List.getElem_append_right (by omega)]
  congr 1
  omega

theorem loadU32_of_holds {rd : Nat → UInt8} {p : Nat} {x : UInt32}
    (h : HoldsBytes rd p (u32Bytes x)) : loadU32 rd p = x := by
  have h0 := h 0 (by simp [u32Bytes])
  have h1 := h 1 (by simp [u32Bytes])
  have h2 := h 2 (by simp [u32Bytes])
  have h3 := h 3 (by simp [u32Bytes])
  simp only [u32Bytes, Nat.add_zero, List.getElem_cons_zero,
    List.getElem_cons_succ] at h0 h1 h2 h3
  have hx : x.toNat < 4294967296 := x.toNat_lt
  apply UInt32.toNat.inj
  simp only [loadU32, h0, h1, h2, h3, UInt8.toNat_ofNat', UInt32.toNat_ofNat']
  omega

theorem loadU16_of_holds {rd : Nat → UInt8} {p : Nat} {x : UInt16}
    (h : HoldsBytes rd p (u16Bytes x)) : loadU16 rd p = x := by
  have h0 := h 0 (by simp [u16Bytes])
  have h1 := h 1 (by simp [u16Bytes])
  simp only [u16Bytes, Nat.add_zero, List.getElem_cons_zero,
    List.getElem_cons_succ] at h0 h1
  have hx : x.toNat < 65536 := x.toNat_lt
  apply UInt16.toNat.inj
  simp only [loadU16, h0, h1, UInt8.toNat_ofNat', UInt16.toNat_ofNat']
  omega

theorem loadU16_congr {rd rd' : Nat → UInt8} {p p' : Nat} (h0 : rd p = rd' p')
    (h1 : rd (p + 1) = rd' (p' + 1)) : loadU16 rd p = loadU16 rd' p' := by
  rw [loadU16, loadU16, h0, h1]

/-! ## Address arithmetic that does not wrap -/

theorem toNat_ofNat_lt {n : Nat} {b : UInt32} (h : n < b.toNat) :
    (UInt32.ofNat n).toNat = n := by
  have := b.toNat_lt
  rw [UInt32.toNat_ofNat', Nat.mod_eq_of_lt (by omega)]

theorem toNat_ofNat_small {n : Nat} (h : n < 4294967296) :
    (UInt32.ofNat n).toNat = n := by
  rw [UInt32.toNat_ofNat', Nat.mod_eq_of_lt h]

/-- `a * b + c` below `2 ^ 32`. -/
theorem toNat_mulAdd {a b c : UInt32}
    (h : a.toNat * b.toNat + c.toNat < 4294967296) :
    (a * b + c).toNat = a.toNat * b.toNat + c.toNat := by
  rw [UInt32.toNat_add, UInt32.toNat_mul, Nat.mod_add_mod, Nat.mod_eq_of_lt h]

/-- `base + off * DTYPE_SIZE` below `2 ^ 32`. -/
theorem toNat_elem {base off : UInt32} {o : Nat} (ho : off.toNat = o)
    (h : base.toNat + o * 2 < 4294967296) :
    (base + off * DTYPE_SIZE).toNat = base.toNat + o * 2 := by
  rw [UInt32.toNat_add, UInt32.toNat_mul, DTYPE_SIZE_toNat, ho,
    Nat.mod_eq_of_lt (a := o * 2) (by omega), Nat.mod_eq_of_lt h]

/-- `base + stride * i` below `2 ^ 32`. -/
theorem toNat_row {base stride : UInt32} {i : Nat}
    (hi : (UInt32.ofNat i).toNat = i)
    (h : base.toNat + i * stride.toNat < 4294967296) :
    (base + stride * UInt32.ofNat i).toNat = base.toNat + i * stride.toNat := by
  rw [UInt32.toNat_add, UInt32.toNat_mul, hi, Nat.mul_comm stride.toNat,
    Nat.mod_eq_of_lt (a := i * stride.toNat) (by omega), Nat.mod_eq_of_lt h]

/-- Element `(r, c)` of a packed row-major array has a flat index below
`rows * cols`. -/
theorem flat_lt {r c rows cols : Nat} (hr : r < rows) (hc : c < cols) :
    r * cols + c < rows * cols :=
  calc r * cols + c < r * cols + cols := by omega
    _ = (r + 1) * cols := by rw [Nat.add_mul, Nat.one_mul]
    _ ≤ rows * cols := Nat.mul_le_mul_right cols hr

theorem flat_div {r c cols : Nat} (hc : c < cols) : (r * cols + c) / cols = r := by
  rw [Nat.mul_comm, Nat.mul_add_div (by omega), Nat.div_eq_of_lt hc, Nat.add_zero]

theorem flat_mod {r c cols : Nat} (hc : c < cols) : (r * cols + c) % cols = c := by
  rw [Nat.mul_comm, Nat.mul_add_mod, Nat.mod_eq_of_lt hc]

/-- A flat index as a row and a column. -/
theorem flat_split {i rows cols : Nat} (hi : i < rows * cols) :
    i / cols < rows ∧ i % cols < cols ∧ i / cols * cols + i % cols = i := by
  have hcols : 0 < cols := Nat.pos_of_mul_pos_left (a := rows) (by omega)
  exact ⟨Nat.div_lt_of_lt_mul (by rwa [Nat.mul_comm] at hi), Nat.mod_lt _ hcols,
    Nat.div_add_mod' _ _⟩

/-! ## Struct layout

`bytes` is what `writeDDR(descAddr, &desc, sizeof(desc))` copies; `load` is
the reinterpreted read at `descPtr`. -/

def DMAParam.bytes (d : DMAParam) : List UInt8 :=
  u32Bytes d.sramAddr ++ u32Bytes d.ddrAddr ++ u32Bytes d.rows
    ++ u32Bytes d.cols ++ u32Bytes d.srcStride ++ u32Bytes d.dstStride

def DMAParam.load (rd : Nat → UInt8) (p : Nat) : DMAParam :=
  { sramAddr := loadU32 rd p, ddrAddr := loadU32 rd (p + 4),
    rows := loadU32 rd (p + 8), cols := loadU32 rd (p + 12),
    srcStride := loadU32 rd (p + 16), dstStride := loadU32 rd (p + 20) }

def boolByte (b : Bool) : UInt8 := if b then 1 else 0

def MatmulParam.bytes (d : MatmulParam) : List UInt8 :=
  u32Bytes d.dstAddr ++ u32Bytes d.rhsAddr ++ u32Bytes d.lhsAddr
    ++ u32Bytes d.M ++ u32Bytes d.K ++ u32Bytes d.N ++ u32Bytes d.accumulate
    ++ [boolByte d.transA, boolByte d.transB, 0, 0]

def MatmulParam.load (rd : Nat → UInt8) (p : Nat) : MatmulParam :=
  { dstAddr := loadU32 rd p, rhsAddr := loadU32 rd (p + 4),
    lhsAddr := loadU32 rd (p + 8), M := loadU32 rd (p + 12),
    K := loadU32 rd (p + 16), N := loadU32 rd (p + 20),
    accumulate := loadU32 rd (p + 24),
    transA := rd (p + 28) != 0, transB := rd (p + 29) != 0 }

def EwiseParam.bytes (d : EwiseParam) : List UInt8 :=
  u32Bytes d.dstAddr ++ u32Bytes d.rhsAddr ++ u32Bytes d.lhsAddr
    ++ u32Bytes d.rows ++ u32Bytes d.cols ++ u32Bytes d.rhsBlk
    ++ u32Bytes d.rhsStride

def EwiseParam.load (rd : Nat → UInt8) (p : Nat) : EwiseParam :=
  { dstAddr := loadU32 rd p, rhsAddr := loadU32 rd (p + 4),
    lhsAddr := loadU32 rd (p + 8), rows := loadU32 rd (p + 12),
    cols := loadU32 rd (p + 16), rhsBlk := loadU32 rd (p + 20),
    rhsStride := loadU32 rd (p + 24) }

/-- The sixteen bytes of the `extra` union stay zero. -/
def ActParam.bytes (d : ActParam) : List UInt8 :=
  u32Bytes d.dstAddr ++ u32Bytes d.srcAddr ++ u32Bytes d.n
    ++ u32Bytes d.kind ++ List.replicate 16 0

def ActParam.load (rd : Nat → UInt8) (p : Nat) : ActParam :=
  { dstAddr := loadU32 rd p, srcAddr := loadU32 rd (p + 4),
    n := loadU32 rd (p + 8), kind := loadU32 rd (p + 12) }

def ReduceParam.bytes (d : ReduceParam) : List UInt8 :=
  u32Bytes d.dstAddr ++ u32Bytes d.idxAddr ++ u32Bytes d.srcAddr
    ++ u32Bytes d.rows ++ u32Bytes d.cols ++ u32Bytes d.kind

def ReduceParam.load (rd : Nat → UInt8) (p : Nat) : ReduceParam :=
  { dstAddr := loadU32 rd p, idxAddr := loadU32 rd (p + 4),
    srcAddr := loadU32 rd (p + 8), rows := loadU32 rd (p + 12),
    cols := loadU32 rd (p + 16), kind := loadU32 rd (p + 20) }

@[simp] theorem u32Bytes_length (x : UInt32) : (u32Bytes x).length = 4 := rfl

@[simp] theorem DMAParam.bytes_length (d : DMAParam) : d.bytes.length = 24 := rfl

@[simp] theorem MatmulParam.bytes_length (d : MatmulParam) :
    d.bytes.length = 32 := rfl

@[simp] theorem EwiseParam.bytes_length (d : EwiseParam) :
    d.bytes.length = 28 := rfl

@[simp] theorem ActParam.bytes_length (d : ActParam) : d.bytes.length = 32 := rfl

@[simp] theorem ReduceParam.bytes_length (d : ReduceParam) :
    d.bytes.length = 24 := rfl

/-- The words of a struct, read back one by one. -/
theorem loadU32_words {rd : Nat → UInt8} {p : Nat} (ws : List UInt32)
    (tail : List UInt8) (h : HoldsBytes rd p (ws.flatMap u32Bytes ++ tail)) :
    ∀ k (hk : k < ws.length), loadU32 rd (p + 4 * k) = ws[k] := by
  induction ws generalizing p with
  | nil => intro k hk; simp at hk
  | cons w ws ih =>
      rw [List.flatMap_cons, List.append_assoc] at h
      intro k hk
      cases k with
      | zero => exact loadU32_of_holds h.append_left
      | succ k =>
          have := ih h.append_right k (by simpa using hk)
          rw [u32Bytes_length] at this
          rw [List.getElem_cons_succ, ← this]
          congr 1
          omega

theorem DMAParam.load_bytes {rd : Nat → UInt8} {p : Nat} {d : DMAParam}
    (h : HoldsBytes rd p d.bytes) : DMAParam.load rd p = d := by
  have hw := loadU32_words [d.sramAddr, d.ddrAddr, d.rows, d.cols,
    d.srcStride, d.dstStride] [] (p := p) (by
      simpa [DMAParam.bytes] using h)
  obtain ⟨a, b, c, e, f, g⟩ := d
  simp only [DMAParam.load, DMAParam.mk.injEq]
  exact ⟨hw 0 (by simp), hw 1 (by simp), hw 2 (by simp), hw 3 (by simp),
    hw 4 (by simp), hw 5 (by simp)⟩

theorem MatmulParam.load_bytes {rd : Nat → UInt8} {p : Nat} {d : MatmulParam}
    (h : HoldsBytes rd p d.bytes) : MatmulParam.load rd p = d := by
  have hw := loadU32_words [d.dstAddr, d.rhsAddr, d.lhsAddr, d.M, d.K,
    d.N, d.accumulate] [boolByte d.transA, boolByte d.transB, 0, 0]
    (p := p) (by simpa [MatmulParam.bytes] using h)
  have ha := h 28 (by simp)
  have hb := h 29 (by simp)
  have hbool : ∀ b : Bool, (boolByte b != 0) = b := by decide
  obtain ⟨a, b, c, e, f, g, i, ta, tb⟩ := d
  simp only [MatmulParam.load, MatmulParam.mk.injEq]
  refine ⟨hw 0 (by simp), hw 1 (by simp), hw 2 (by simp), hw 3 (by simp),
    hw 4 (by simp), hw 5 (by simp), hw 6 (by simp), ?_, ?_⟩
  · rw [ha]; exact hbool ta
  · rw [hb]; exact hbool tb

theorem EwiseParam.load_bytes {rd : Nat → UInt8} {p : Nat} {d : EwiseParam}
    (h : HoldsBytes rd p d.bytes) : EwiseParam.load rd p = d := by
  have hw := loadU32_words [d.dstAddr, d.rhsAddr, d.lhsAddr, d.rows,
    d.cols, d.rhsBlk, d.rhsStride] [] (p := p) (by
      simpa [EwiseParam.bytes] using h)
  obtain ⟨a, b, c, e, f, g, i⟩ := d
  simp only [EwiseParam.load, EwiseParam.mk.injEq]
  exact ⟨hw 0 (by simp), hw 1 (by simp), hw 2 (by simp), hw 3 (by simp),
    hw 4 (by simp), hw 5 (by simp), hw 6 (by simp)⟩

theorem ActParam.load_bytes {rd : Nat → UInt8} {p : Nat} {d : ActParam}
    (h : HoldsBytes rd p d.bytes) : ActParam.load rd p = d := by
  have hw := loadU32_words [d.dstAddr, d.srcAddr, d.n, d.kind]
    (List.replicate 16 0) (p := p) (by
      simpa [ActParam.bytes] using h)
  obtain ⟨a, b, c, e⟩ := d
  simp only [ActParam.load, ActParam.mk.injEq]
  exact ⟨hw 0 (by simp), hw 1 (by simp), hw 2 (by simp), hw 3 (by simp)⟩

theorem ReduceParam.load_bytes {rd : Nat → UInt8} {p : Nat} {d : ReduceParam}
    (h : HoldsBytes rd p d.bytes) : ReduceParam.load rd p = d := by
  have hw := loadU32_words [d.dstAddr, d.idxAddr, d.srcAddr, d.rows,
    d.cols, d.kind] [] (p := p) (by
      simpa [ReduceParam.bytes] using h)
  obtain ⟨a, b, c, e, f, g⟩ := d
  simp only [ReduceParam.load, ReduceParam.mk.injEq]
  exact ⟨hw 0 (by simp), hw 1 (by simp), hw 2 (by simp), hw 3 (by simp),
    hw 4 (by simp), hw 5 (by simp)⟩

end EclipseNpu.Runtime

import EclipseNpu.Lib.Loop
import EclipseNpu.Runtime.Isa
import Mathlib.Algebra.Group.Int.Defs
import Mathlib.Algebra.Group.Nat.Defs

/-!
# Runtime — CModel

The simulator's memory and instruction execution
(`runtime/lib/cmodel.cpp`, `runtime/lib/cmodel_exec.cpp`).

A `CModel` is the two byte vectors, indexed by physical address (the
vector index is the address minus the base). `CModel.sram` and
`CModel.ddr` are the asserting pointer accessors: they check ONE address.
The bytes a caller then touches behind that pointer are checked against
the end of the vector by `sramSpan`/`ddrSpan`, whose failure
`outOfBounds` stands for the undefined behaviour of the source, not for
an assertion.

Addresses are `UInt32` and wrap exactly where the source's `uint32_t`
does. The `size_t` factor `DTYPE_SIZE` widens a product to 64 bits, but
every such value is truncated to `uint32_t` again when it is passed as an
address, so wrapping multiplication gives the same address; a `memcpy`
length is not truncated and stays a natural number.

Floating point is abstract (`Fp32`): the arithmetic, the comparisons and
the two conversions are parameters of the model.
-/

namespace EclipseNpu.Runtime

open EclipseNpu.Lib

/-! ## Arithmetic -/

/-- The `float` operations the executor uses. `rsqrt` is
`(float)(1.0 / std::sqrt(x))`, `silu` is `(float)(x / (1.0 + std::exp(-x)))`. -/
class Fp32 (F : Type) where
  zero : F
  add : F → F → F
  sub : F → F → F
  mul : F → F → F
  div : F → F → F
  exp : F → F
  rsqrt : F → F
  silu : F → F
  /-- `a > b` -/
  gt : F → F → Bool
  /-- `a == b` -/
  eq : F → F → Bool
  isnan : F → Bool
  signbit : F → Bool
  quietNaN : F
  fp16ToFp32 : UInt16 → F
  fp32ToFp16 : F → UInt16

/-! ## Memory -/

/-- One byte of `sram_` or of `ddr_`, by physical address. -/
inductive Loc
  | sram (addr : Nat)
  | ddr (addr : Nat)
  deriving DecidableEq, Repr

/-- The physical address of a byte; the two vectors live at disjoint
address ranges. -/
def Loc.addr : Loc → Nat
  | .sram a => a
  | .ddr a => a

@[simp] theorem Loc.addr_sram (a : Nat) : (Loc.sram a).addr = a := rfl
@[simp] theorem Loc.addr_ddr (a : Nat) : (Loc.ddr a).addr = a := rfl

abbrev CModel := Loc → UInt8

/-- How a run can go wrong: a failed `ECLIPSE_ASSERT`, or an access past
the end of a vector. -/
inductive Fault
  | assertion (msg : String)
  | outOfBounds
  deriving DecidableEq, Repr

def eclipseAssert (cond : Bool) (msg : String) : Except Fault Unit :=
  if cond then .ok () else .error (.assertion msg)

/-- `CModel::ddr`: the pointer for a DDR address. -/
def CModel.ddr (addr : UInt32) : Except Fault Nat := do
  eclipseAssert (DDR_ADDR ≤ addr && addr < DDR_ADDR + DDR_SIZE)
    "ddr addr out of range"
  return addr.toNat

/-- `CModel::sram`: the pointer for an SRAM address. -/
def CModel.sram (addr : UInt32) : Except Fault Nat := do
  eclipseAssert (SRAM_ADDR ≤ addr && addr < SRAM_ADDR + SRAM_SIZE)
    "sram addr out of range"
  return addr.toNat

/-- `n` bytes behind an SRAM pointer stay inside `sram_`. -/
def sramSpan (p n : Nat) : Except Fault Unit :=
  if n = 0 ∨ p + n ≤ sramEnd then .ok () else .error .outOfBounds

/-- `n` bytes behind a DDR pointer stay inside `ddr_`. -/
def ddrSpan (p n : Nat) : Except Fault Unit :=
  if n = 0 ∨ p + n ≤ ddrEnd then .ok () else .error .outOfBounds

def CModel.sramByte (s : CModel) (a : Nat) : UInt8 := s (.sram a)

def CModel.ddrByte (s : CModel) (a : Nat) : UInt8 := s (.ddr a)

/-- Overwrite the SRAM bytes from `p` on with `bs`. -/
def CModel.storeSram (s : CModel) (p : Nat) (bs : List UInt8) : CModel
  | .sram a => if p ≤ a ∧ a < p + bs.length then bs.getD (a - p) 0 else s (.sram a)
  | .ddr a => s (.ddr a)

/-- Overwrite the DDR bytes from `p` on with `bs`. -/
def CModel.storeDdr (s : CModel) (p : Nat) (bs : List UInt8) : CModel
  | .sram a => s (.sram a)
  | .ddr a => if p ≤ a ∧ a < p + bs.length then bs.getD (a - p) 0 else s (.ddr a)

/-- `memcpy` of `n` bytes from DDR to SRAM. -/
def CModel.copyToSram (s : CModel) (dst src n : Nat) : CModel
  | .sram a => if dst ≤ a ∧ a < dst + n then s (.ddr (src + (a - dst))) else s (.sram a)
  | .ddr a => s (.ddr a)

/-- `memcpy` of `n` bytes from SRAM to DDR. -/
def CModel.copyToDdr (s : CModel) (dst src n : Nat) : CModel
  | .sram a => s (.sram a)
  | .ddr a => if dst ≤ a ∧ a < dst + n then s (.sram (src + (a - dst))) else s (.ddr a)

/-! ### The accessors

Each fact in both directions: when the access succeeds, and what its
success says. -/

theorem assert_ok_iff {c : Bool} {msg : String} {u : Unit} :
    eclipseAssert c msg = .ok u ↔ c = true := by
  cases c <;> simp [eclipseAssert]

@[simp] theorem assert_true (msg : String) :
    eclipseAssert true msg = .ok () := rfl

theorem ddr_ok_iff {addr : UInt32} {p : Nat} :
    CModel.ddr addr = .ok p ↔
      p = addr.toNat ∧ 0x40000000 ≤ addr.toNat ∧ addr.toNat < ddrEnd := by
  have hrange : (decide (DDR_ADDR ≤ addr) && decide (addr < DDR_ADDR + DDR_SIZE))
      = true ↔ 0x40000000 ≤ addr.toNat ∧ addr.toNat < ddrEnd := by
    simp only [Bool.and_eq_true, decide_eq_true_eq, UInt32.le_iff_toNat_le,
      UInt32.lt_iff_toNat_lt]
    rfl
  by_cases h : 0x40000000 ≤ addr.toNat ∧ addr.toNat < ddrEnd
  · rw [CModel.ddr, hrange.mpr h]
    constructor
    · intro he; cases he; exact ⟨rfl, h⟩
    · rintro ⟨rfl, -⟩; rfl
  · rw [CModel.ddr, Bool.eq_false_iff.mpr (fun hc => h (hrange.mp hc))]
    constructor
    · intro he; cases he
    · rintro ⟨-, hr⟩; exact absurd hr h

theorem sram_ok_iff {addr : UInt32} {p : Nat} :
    CModel.sram addr = .ok p ↔
      p = addr.toNat ∧ 0x10000000 ≤ addr.toNat ∧ addr.toNat < sramEnd := by
  have hrange :
      (decide (SRAM_ADDR ≤ addr) && decide (addr < SRAM_ADDR + SRAM_SIZE))
      = true ↔ 0x10000000 ≤ addr.toNat ∧ addr.toNat < sramEnd := by
    simp only [Bool.and_eq_true, decide_eq_true_eq, UInt32.le_iff_toNat_le,
      UInt32.lt_iff_toNat_lt]
    rfl
  by_cases h : 0x10000000 ≤ addr.toNat ∧ addr.toNat < sramEnd
  · rw [CModel.sram, hrange.mpr h]
    constructor
    · intro he; cases he; exact ⟨rfl, h⟩
    · rintro ⟨rfl, -⟩; rfl
  · rw [CModel.sram, Bool.eq_false_iff.mpr (fun hc => h (hrange.mp hc))]
    constructor
    · intro he; cases he
    · rintro ⟨-, hr⟩; exact absurd hr h

theorem sramSpan_ok_iff {p n : Nat} {u : Unit} :
    sramSpan p n = .ok u ↔ n = 0 ∨ p + n ≤ sramEnd := by
  unfold sramSpan
  split <;> simp_all

theorem ddrSpan_ok_iff {p n : Nat} {u : Unit} :
    ddrSpan p n = .ok u ↔ n = 0 ∨ p + n ≤ ddrEnd := by
  unfold ddrSpan
  split <;> simp_all

@[simp] theorem storeSram_ddr (s : CModel) (p : Nat) (bs : List UInt8) (a : Nat) :
    s.storeSram p bs (.ddr a) = s (.ddr a) := rfl

@[simp] theorem storeDdr_sram (s : CModel) (p : Nat) (bs : List UInt8) (a : Nat) :
    s.storeDdr p bs (.sram a) = s (.sram a) := rfl

@[simp] theorem copyToSram_ddr (s : CModel) (dst src n a : Nat) :
    s.copyToSram dst src n (.ddr a) = s (.ddr a) := rfl

@[simp] theorem copyToDdr_sram (s : CModel) (dst src n a : Nat) :
    s.copyToDdr dst src n (.sram a) = s (.sram a) := rfl

theorem storeSram_out {s : CModel} {p : Nat} {bs : List UInt8} {a : Nat}
    (h : a < p ∨ p + bs.length ≤ a) :
    s.storeSram p bs (.sram a) = s (.sram a) := if_neg (by omega)

theorem storeDdr_out {s : CModel} {p : Nat} {bs : List UInt8} {a : Nat}
    (h : a < p ∨ p + bs.length ≤ a) :
    s.storeDdr p bs (.ddr a) = s (.ddr a) := if_neg (by omega)

theorem copyToSram_out {s : CModel} {dst src n a : Nat}
    (h : a < dst ∨ dst + n ≤ a) :
    s.copyToSram dst src n (.sram a) = s (.sram a) := if_neg (by omega)

theorem copyToDdr_out {s : CModel} {dst src n a : Nat}
    (h : a < dst ∨ dst + n ≤ a) :
    s.copyToDdr dst src n (.ddr a) = s (.ddr a) := if_neg (by omega)

theorem copyToSram_in {s : CModel} {dst src n j : Nat} (h : j < n) :
    s.copyToSram dst src n (.sram (dst + j)) = s (.ddr (src + j)) := by
  show (if dst ≤ dst + j ∧ dst + j < dst + n then _ else _) = _
  rw [if_pos ⟨by omega, by omega⟩, Nat.add_sub_cancel_left]

theorem copyToDdr_in {s : CModel} {dst src n j : Nat} (h : j < n) :
    s.copyToDdr dst src n (.ddr (dst + j)) = s (.sram (src + j)) := by
  show (if dst ≤ dst + j ∧ dst + j < dst + n then _ else _) = _
  rw [if_pos ⟨by omega, by omega⟩, Nat.add_sub_cancel_left]

theorem storeSram_holds (s : CModel) (p : Nat) (bs : List UInt8) :
    HoldsBytes (s.storeSram p bs).sramByte p bs := by
  intro k hk
  show (if p ≤ p + k ∧ p + k < p + bs.length then _ else _) = _
  rw [if_pos ⟨by omega, by omega⟩, Nat.add_sub_cancel_left,
    List.getD_eq_getElem?_getD, List.getElem?_eq_getElem hk]
  rfl

theorem storeDdr_holds (s : CModel) (p : Nat) (bs : List UInt8) :
    HoldsBytes (s.storeDdr p bs).ddrByte p bs := by
  intro k hk
  show (if p ≤ p + k ∧ p + k < p + bs.length then _ else _) = _
  rw [if_pos ⟨by omega, by omega⟩, Nat.add_sub_cancel_left,
    List.getD_eq_getElem?_getD, List.getElem?_eq_getElem hk]
  rfl

section Exec

variable (F : Type) [Fp32 F]

/-- `CModel::readFP16`. -/
def readFP16 (addr : UInt32) (s : CModel) : Except Fault F := do
  let p ← CModel.sram addr
  sramSpan p 2
  return Fp32.fp16ToFp32 (loadU16 s.sramByte p)

variable {F} in
/-- `CModel::writeFP16`. -/
def writeFP16 (addr : UInt32) (v : F) (s : CModel) : Except Fault CModel := do
  let p ← CModel.sram addr
  sramSpan p 2
  return s.storeSram p (u16Bytes (Fp32.fp32ToFp16 v))

theorem readFP16_ok_iff {addr : UInt32} {s : CModel} {v : F} :
    readFP16 F addr s = .ok v ↔
      (0x10000000 ≤ addr.toNat ∧ addr.toNat + 2 ≤ sramEnd)
        ∧ v = Fp32.fp16ToFp32 (loadU16 s.sramByte addr.toNat) := by
  constructor
  · intro h
    obtain ⟨p, hp, h⟩ := bind_ok h
    obtain ⟨u, hu, h⟩ := bind_ok h
    obtain ⟨rfl, hlo, -⟩ := sram_ok_iff.mp hp
    have hsp := sramSpan_ok_iff.mp hu
    cases h
    exact ⟨⟨hlo, by omega⟩, rfl⟩
  · rintro ⟨⟨hlo, hhi⟩, rfl⟩
    have hp : CModel.sram addr = .ok addr.toNat :=
      sram_ok_iff.mpr ⟨rfl, hlo, by omega⟩
    have hu : sramSpan addr.toNat 2 = .ok () := sramSpan_ok_iff.mpr (.inr hhi)
    rw [readFP16, hp, ok_bind, hu, ok_bind]
    rfl

theorem writeFP16_ok_iff {addr : UInt32} {v : F} {s s' : CModel} :
    writeFP16 addr v s = .ok s' ↔
      (0x10000000 ≤ addr.toNat ∧ addr.toNat + 2 ≤ sramEnd)
        ∧ s' = s.storeSram addr.toNat (u16Bytes (Fp32.fp32ToFp16 v)) := by
  constructor
  · intro h
    obtain ⟨p, hp, h⟩ := bind_ok h
    obtain ⟨u, hu, h⟩ := bind_ok h
    obtain ⟨rfl, hlo, -⟩ := sram_ok_iff.mp hp
    have hsp := sramSpan_ok_iff.mp hu
    cases h
    exact ⟨⟨hlo, by omega⟩, rfl⟩
  · rintro ⟨⟨hlo, hhi⟩, rfl⟩
    have hp : CModel.sram addr = .ok addr.toNat :=
      sram_ok_iff.mpr ⟨rfl, hlo, by omega⟩
    have hu : sramSpan addr.toNat 2 = .ok () := sramSpan_ok_iff.mpr (.inr hhi)
    rw [writeFP16, hp, ok_bind, hu, ok_bind]
    rfl

/-! ## Descriptors

A descriptor is read through a pointer into `ddr_`; only `execDmaStore`
writes `ddr_`, so it alone reads its descriptor again in every row. -/

/-- The `size` bytes of the struct at `descPtr`, decoded by `load`. -/
def readDesc {α : Type} (load : (Nat → UInt8) → Nat → α) (size : Nat)
    (descPtr : UInt32) (s : CModel) : Except Fault α := do
  let p ← CModel.ddr descPtr
  ddrSpan p size
  return load s.ddrByte p

theorem readDesc_ok_iff {α : Type} {load : (Nat → UInt8) → Nat → α}
    {size : Nat} {descPtr : UInt32} {s : CModel} {d : α} :
    readDesc load size descPtr s = .ok d ↔
      (0x40000000 ≤ descPtr.toNat ∧ descPtr.toNat < ddrEnd
        ∧ (size = 0 ∨ descPtr.toNat + size ≤ ddrEnd))
        ∧ d = load s.ddrByte descPtr.toNat := by
  constructor
  · intro h
    obtain ⟨p, hp, h⟩ := bind_ok h
    obtain ⟨u, hu, h⟩ := bind_ok h
    obtain ⟨rfl, hlo, hhi⟩ := ddr_ok_iff.mp hp
    cases h
    exact ⟨⟨hlo, hhi, ddrSpan_ok_iff.mp hu⟩, rfl⟩
  · rintro ⟨⟨hlo, hhi, hsp⟩, rfl⟩
    have hp : CModel.ddr descPtr = .ok descPtr.toNat :=
      ddr_ok_iff.mpr ⟨rfl, hlo, hhi⟩
    have hu : ddrSpan descPtr.toNat size = .ok () := ddrSpan_ok_iff.mpr hsp
    rw [readDesc, hp, ok_bind, hu, ok_bind]
    rfl

/-! ## DMA -/

/-- Where row `i` of a load comes from, and where it goes. -/
def DMAParam.loadSrc (desc : DMAParam) (i : Nat) : UInt32 :=
  desc.ddrAddr + desc.srcStride * UInt32.ofNat i

def DMAParam.loadDst (desc : DMAParam) (i : Nat) : UInt32 :=
  desc.sramAddr + desc.dstStride * UInt32.ofNat i

/-- Where row `i` of a store comes from, and where it goes. -/
def DMAParam.storeSrc (desc : DMAParam) (i : Nat) : UInt32 :=
  desc.sramAddr + desc.srcStride * UInt32.ofNat i

def DMAParam.storeDst (desc : DMAParam) (i : Nat) : UInt32 :=
  desc.ddrAddr + desc.dstStride * UInt32.ofNat i

/-- Row `i` of a load: one `memcpy` of `cols * DTYPE_SIZE` bytes. -/
def dmaLoadRow (desc : DMAParam) (i : Nat) (s : CModel) :
    Except Fault CModel := do
  let src ← CModel.ddr (desc.loadSrc i)
  let dst ← CModel.sram (desc.loadDst i)
  ddrSpan src (desc.cols.toNat * 2)
  sramSpan dst (desc.cols.toNat * 2)
  return s.copyToSram dst src (desc.cols.toNat * 2)

def dmaLoad (desc : DMAParam) (s : CModel) : Except Fault CModel := do
  eclipseAssert (desc.sramAddr % 16 == 0 && desc.ddrAddr % 16 == 0)
    "dma load: address must be 16-byte aligned"
  forLoop desc.rows.toNat (dmaLoadRow desc) s

def execDmaLoad (descPtr : UInt32) (s : CModel) : Except Fault CModel := do
  let desc ← readDesc DMAParam.load 24 descPtr s
  dmaLoad desc s

/-- Row `i` of a store. -/
def dmaStoreRow (desc : DMAParam) (i : Nat) (s : CModel) :
    Except Fault CModel := do
  let src ← CModel.sram (desc.storeSrc i)
  let dst ← CModel.ddr (desc.storeDst i)
  sramSpan src (desc.cols.toNat * 2)
  ddrSpan dst (desc.cols.toNat * 2)
  return s.copyToDdr dst src (desc.cols.toNat * 2)

/-- A DDR address whose row of `n` bytes stays inside `ddr_`. -/
def DdrRow (addr : UInt32) (n : Nat) : Prop :=
  0x40000000 ≤ addr.toNat ∧ addr.toNat < ddrEnd
    ∧ (n = 0 ∨ addr.toNat + n ≤ ddrEnd)

/-- An SRAM address whose row of `n` bytes stays inside `sram_`. -/
def SramRow (addr : UInt32) (n : Nat) : Prop :=
  0x10000000 ≤ addr.toNat ∧ addr.toNat < sramEnd
    ∧ (n = 0 ∨ addr.toNat + n ≤ sramEnd)

theorem dmaLoadRow_ok_iff {desc : DMAParam} {i : Nat} {s s' : CModel} :
    dmaLoadRow desc i s = .ok s' ↔
      (DdrRow (desc.loadSrc i) (desc.cols.toNat * 2)
        ∧ SramRow (desc.loadDst i) (desc.cols.toNat * 2))
      ∧ s' = s.copyToSram (desc.loadDst i).toNat (desc.loadSrc i).toNat
          (desc.cols.toNat * 2) := by
  constructor
  · intro h
    obtain ⟨p, hp, h⟩ := bind_ok h
    obtain ⟨q, hq, h⟩ := bind_ok h
    obtain ⟨u, hu, h⟩ := bind_ok h
    obtain ⟨v, hv, h⟩ := bind_ok h
    obtain ⟨rfl, hpr⟩ := ddr_ok_iff.mp hp
    obtain ⟨rfl, hqr⟩ := sram_ok_iff.mp hq
    cases h
    exact ⟨⟨⟨hpr.1, hpr.2, ddrSpan_ok_iff.mp hu⟩,
      ⟨hqr.1, hqr.2, sramSpan_ok_iff.mp hv⟩⟩, rfl⟩
  · rintro ⟨⟨⟨h1, h2, h3⟩, ⟨h4, h5, h6⟩⟩, rfl⟩
    rw [dmaLoadRow, ddr_ok_iff.mpr ⟨rfl, h1, h2⟩, ok_bind,
      sram_ok_iff.mpr ⟨rfl, h4, h5⟩, ok_bind,
      show ddrSpan _ _ = .ok () from ddrSpan_ok_iff.mpr h3, ok_bind,
      show sramSpan _ _ = .ok () from sramSpan_ok_iff.mpr h6, ok_bind]
    rfl

theorem dmaStoreRow_ok_iff {desc : DMAParam} {i : Nat} {s s' : CModel} :
    dmaStoreRow desc i s = .ok s' ↔
      (SramRow (desc.storeSrc i) (desc.cols.toNat * 2)
        ∧ DdrRow (desc.storeDst i) (desc.cols.toNat * 2))
      ∧ s' = s.copyToDdr (desc.storeDst i).toNat (desc.storeSrc i).toNat
          (desc.cols.toNat * 2) := by
  constructor
  · intro h
    obtain ⟨p, hp, h⟩ := bind_ok h
    obtain ⟨q, hq, h⟩ := bind_ok h
    obtain ⟨u, hu, h⟩ := bind_ok h
    obtain ⟨v, hv, h⟩ := bind_ok h
    obtain ⟨rfl, hpr⟩ := sram_ok_iff.mp hp
    obtain ⟨rfl, hqr⟩ := ddr_ok_iff.mp hq
    cases h
    exact ⟨⟨⟨hpr.1, hpr.2, sramSpan_ok_iff.mp hu⟩,
      ⟨hqr.1, hqr.2, ddrSpan_ok_iff.mp hv⟩⟩, rfl⟩
  · rintro ⟨⟨⟨h1, h2, h3⟩, ⟨h4, h5, h6⟩⟩, rfl⟩
    rw [dmaStoreRow, sram_ok_iff.mpr ⟨rfl, h1, h2⟩, ok_bind,
      ddr_ok_iff.mpr ⟨rfl, h4, h5⟩, ok_bind,
      show sramSpan _ _ = .ok () from sramSpan_ok_iff.mpr h3, ok_bind,
      show ddrSpan _ _ = .ok () from ddrSpan_ok_iff.mpr h6, ok_bind]
    rfl

/-- The rows of a store from row `i` on. The loop test reads
`desc->rows` from memory each time; `fuel` bounds the number of tests,
and `2 ^ 32` of them always suffice because `i` is a `uint32_t`. -/
def dmaStoreRows (descPtr : UInt32) : Nat → Nat → CModel → Except Fault CModel
  | 0, _, s => .ok s
  | fuel + 1, i, s => do
      let desc ← readDesc DMAParam.load 24 descPtr s
      if i < desc.rows.toNat then
        let s ← dmaStoreRow desc i s
        dmaStoreRows descPtr fuel (i + 1) s
      else .ok s

def execDmaStore (descPtr : UInt32) (s : CModel) : Except Fault CModel := do
  let desc ← readDesc DMAParam.load 24 descPtr s
  eclipseAssert (desc.sramAddr % 16 == 0 && desc.ddrAddr % 16 == 0)
    "dma store: address must be 16-byte aligned"
  dmaStoreRows descPtr (2 ^ 32) 0 s

/-! ## MATMUL -/

def MatmulParam.lhsOff (desc : MatmulParam) (m k : UInt32) : UInt32 :=
  if desc.transA then k * desc.M + m else m * desc.K + k

def MatmulParam.rhsOff (desc : MatmulParam) (k n : UInt32) : UInt32 :=
  if desc.transB then n * desc.K + k else k * desc.N + n

/-- One step of the inner `k` loop: `acc += lhs * rhs`. -/
def matmulMac (desc : MatmulParam) (m n : UInt32) (s : CModel) (k : Nat)
    (acc : F) : Except Fault F := do
  let a ← readFP16 F
    (desc.lhsAddr + desc.lhsOff m (UInt32.ofNat k) * DTYPE_SIZE) s
  let b ← readFP16 F
    (desc.rhsAddr + desc.rhsOff (UInt32.ofNat k) n * DTYPE_SIZE) s
  return Fp32.add acc (Fp32.mul a b)

/-- The value of one output element. -/
def matmulAcc (desc : MatmulParam) (m n : UInt32) (s : CModel) :
    Except Fault F := do
  let acc ← forLoop desc.K.toNat (matmulMac F desc m n s) Fp32.zero
  if desc.accumulate ≠ 0 then
    let d ← readFP16 F (desc.dstAddr + (m * desc.N + n) * DTYPE_SIZE) s
    return Fp32.add acc d
  else
    return acc

def matmulCell (desc : MatmulParam) (m n : UInt32) (s : CModel) :
    Except Fault CModel := do
  let acc ← matmulAcc F desc m n s
  writeFP16 (desc.dstAddr + (m * desc.N + n) * DTYPE_SIZE) acc s

def MatmulParam.dstEnd (desc : MatmulParam) : UInt32 :=
  desc.dstAddr + desc.M * desc.N * DTYPE_SIZE

def MatmulParam.lhsEnd (desc : MatmulParam) : UInt32 :=
  desc.lhsAddr + desc.M * desc.K * DTYPE_SIZE

def MatmulParam.rhsEnd (desc : MatmulParam) : UInt32 :=
  desc.rhsAddr + desc.K * desc.N * DTYPE_SIZE

/-- The overlap assertion, on wrapping 32-bit ends. -/
def MatmulParam.noOverlap (desc : MatmulParam) : Bool :=
  (desc.dstAddr ≥ desc.lhsEnd || desc.lhsAddr ≥ desc.dstEnd)
    && (desc.dstAddr ≥ desc.rhsEnd || desc.rhsAddr ≥ desc.dstEnd)
    && (desc.lhsAddr ≥ desc.rhsEnd || desc.rhsAddr ≥ desc.lhsEnd)

def matmul (desc : MatmulParam) (s : CModel) : Except Fault CModel := do
  eclipseAssert desc.noOverlap "matmul: dst/lhs/rhs must not overlap"
  forLoop desc.M.toNat (fun m s =>
    forLoop desc.N.toNat (fun n s =>
      matmulCell F desc (UInt32.ofNat m) (UInt32.ofNat n) s) s) s

def execMatmul (descPtr : UInt32) (s : CModel) : Except Fault CModel := do
  let desc ← readDesc MatmulParam.load 32 descPtr s
  matmul F desc s

/-! ## ELEMENTWISE -/

inductive EwiseOp
  | add
  | sub
  | mul
  | div
  deriving DecidableEq, Repr

/-- The `float` operation of an elementwise opcode. -/
def EwiseOp.eval : EwiseOp → F → F → F
  | .add => Fp32.add
  | .sub => Fp32.sub
  | .mul => Fp32.mul
  | .div => Fp32.div

/-- The flat rhs index of element `i`. -/
def EwiseParam.rhsIndex (desc : EwiseParam) (i : UInt32) : UInt32 :=
  i / desc.cols * desc.rhsStride + i % desc.rhsBlk

/-- The value of one output element; DIV asserts its divisor. -/
def ewiseValue (desc : EwiseParam) (op : EwiseOp) (i : UInt32) (s : CModel) :
    Except Fault F := do
  let lhs ← readFP16 F (desc.lhsAddr + i * DTYPE_SIZE) s
  let rhs ← readFP16 F (desc.rhsAddr + desc.rhsIndex i * DTYPE_SIZE) s
  if op = .div then
    eclipseAssert (!Fp32.eq rhs (Fp32.zero : F)) "The divisor cannot be zero."
  return op.eval F lhs rhs

def ewiseCell (desc : EwiseParam) (op : EwiseOp) (i : Nat) (s : CModel) :
    Except Fault CModel := do
  let v ← ewiseValue F desc op (UInt32.ofNat i) s
  writeFP16 (desc.dstAddr + UInt32.ofNat i * DTYPE_SIZE) v s

def elementwise (desc : EwiseParam) (op : EwiseOp) (s : CModel) :
    Except Fault CModel := do
  eclipseAssert (desc.cols != 0 && desc.rhsBlk != 0)
    "ewize: cols/rhsBlk must be non-zero"
  eclipseAssert (desc.cols % desc.rhsBlk == 0)
    "ewize: cols must be divisible by rhsBlk"
  forLoop (desc.rows * desc.cols).toNat (ewiseCell F desc op) s

def execElementwise (descPtr : UInt32) (op : EwiseOp) (s : CModel) :
    Except Fault CModel := do
  let desc ← readDesc EwiseParam.load 28 descPtr s
  elementwise F desc op s

/-! ## ACT -/

/-- The `float` function of an activation kind. -/
def ActKind.eval : ActKind → F → F
  | .RELU, x => if Fp32.gt x (Fp32.zero : F) then x else Fp32.zero
  | .EXP, x => Fp32.exp x
  | .RSQRT, x => Fp32.rsqrt x
  | .SILU, x => Fp32.silu x

def actCell (desc : ActParam) (kind : ActKind) (i : Nat) (s : CModel) :
    Except Fault CModel := do
  let src ← readFP16 F (desc.srcAddr + UInt32.ofNat i * DTYPE_SIZE) s
  writeFP16 (desc.dstAddr + UInt32.ofNat i * DTYPE_SIZE) (kind.eval F src) s

def act (desc : ActParam) (s : CModel) : Except Fault CModel :=
  match ActKind.ofU32? desc.kind with
  | some kind => forLoop desc.n.toNat (actCell F desc kind) s
  | none => .error (.assertion "unsupported act kind")

def execAct (descPtr : UInt32) (s : CModel) : Except Fault CModel := do
  let desc ← readDesc ActParam.load 32 descPtr s
  act F desc s

/-! ## REDUCE -/

variable {F} in
/-- Maximum: NaN propagates; of two zeros, `+0` if there is one. -/
def reduceMax (a b : F) : F :=
  if Fp32.isnan a || Fp32.isnan b then Fp32.quietNaN
  else if Fp32.gt a b then a
  else if Fp32.gt b a then b
  else if Fp32.eq a Fp32.zero && Fp32.eq b Fp32.zero then
    (if Fp32.signbit a then b else a)
  else a

/-- What a reduction carries along a row: the value and its index. -/
structure ValueIndex (F : Type) where
  value : F
  index : UInt32

variable {F} in
/-- The value as in `reduceMax`; the index of the first element equal to
it (the first NaN for a NaN). -/
def reduceArgmax (a b : ValueIndex F) : ValueIndex F :=
  let value := reduceMax a.value b.value
  if Fp32.isnan value then
    ⟨value, if Fp32.isnan a.value then a.index else b.index⟩
  else
    ⟨value, if Fp32.eq a.value value then a.index else b.index⟩

/-- The element a row fold starts from, and what it does with each later
element. MAX, SUM and SQUARE_SUM carry no index. -/
def ReduceKind.first : ReduceKind → F → ValueIndex F
  | .SQUARE_SUM, x => ⟨Fp32.mul x x, 0⟩
  | _, x => ⟨x, 0⟩

def ReduceKind.combine : ReduceKind → ValueIndex F → ValueIndex F → ValueIndex F
  | .MAX, a, b => ⟨reduceMax a.value b.value, 0⟩
  | .SUM, a, b => ⟨Fp32.add a.value b.value, 0⟩
  | .SQUARE_SUM, a, b => ⟨Fp32.add a.value (Fp32.mul b.value b.value), 0⟩
  | .ARGMAX, a, b => reduceArgmax a b

/-- The byte address of row `i` of `src`. -/
def ReduceParam.rowAddr (desc : ReduceParam) (i : Nat) : UInt32 :=
  desc.srcAddr + UInt32.ofNat i * desc.cols * DTYPE_SIZE

/-- The fold of row `i`, left to right from its first element. -/
def reduceRow (desc : ReduceParam) (kind : ReduceKind) (i : Nat) (s : CModel) :
    Except Fault (ValueIndex F) := do
  let x ← readFP16 F (desc.rowAddr i) s
  forLoop (desc.cols.toNat - 1) (fun j acc => do
    let y ← readFP16 F
      (desc.rowAddr i + UInt32.ofNat (j + 1) * DTYPE_SIZE) s
    return kind.combine F acc ⟨y, UInt32.ofNat (j + 1)⟩) (kind.first F x)

variable {F} in
/-- Write the row's value, and for ARGMAX its index. -/
def reduceWrite (desc : ReduceParam) (kind : ReduceKind) (i : Nat)
    (r : ValueIndex F) (s : CModel) : Except Fault CModel := do
  let s ← writeFP16 (desc.dstAddr + UInt32.ofNat i * DTYPE_SIZE) r.value s
  if kind = .ARGMAX then
    let p ← CModel.sram (desc.idxAddr + UInt32.ofNat i * 4)
    sramSpan p 4
    return s.storeSram p (u32Bytes r.index)
  else
    return s

def reduceCell (desc : ReduceParam) (kind : ReduceKind) (i : Nat) (s : CModel) :
    Except Fault CModel := do
  let r ← reduceRow F desc kind i s
  reduceWrite desc kind i r s

def reduce (desc : ReduceParam) (s : CModel) : Except Fault CModel := do
  eclipseAssert (desc.rows != 0 && desc.cols != 0)
    "reduce: rows/cols must be non-zero"
  eclipseAssert
    (decide (desc.kind = ReduceKind.ARGMAX.toU32) == (desc.idxAddr != 0))
    "reduce: idxAddr is only used by ARGMAX"
  match ReduceKind.ofU32? desc.kind with
  | some kind => forLoop desc.rows.toNat (reduceCell F desc kind) s
  | none => .error (.assertion "unsupported reduce kind")

def execReduce (descPtr : UInt32) (s : CModel) : Except Fault CModel := do
  let desc ← readDesc ReduceParam.load 24 descPtr s
  reduce F desc s

/-! ## Dispatch -/

/-- `CModel::exec`. The `default:` assertion is unreachable: `OpCode` has
no further value. -/
def exec (inst : Instruction) (s : CModel) : Except Fault CModel :=
  match inst.opcode with
  | .DMA_LOAD => execDmaLoad inst.descPtr s
  | .DMA_STORE => execDmaStore inst.descPtr s
  | .MATMUL => execMatmul F inst.descPtr s
  | .ELEMENTWISE_ADD => execElementwise F inst.descPtr .add s
  | .ELEMENTWISE_SUB => execElementwise F inst.descPtr .sub s
  | .ELEMENTWISE_MUL => execElementwise F inst.descPtr .mul s
  | .ELEMENTWISE_DIV => execElementwise F inst.descPtr .div s
  | .ACT => execAct F inst.descPtr s
  | .REDUCE => execReduce F inst.descPtr s
  | .SYNC => .ok s

end Exec

/-- What a run ends with, if not a memory. -/
def outcome (r : Except Fault CModel) : Option Fault :=
  match r with
  | .ok _ => none
  | .error e => some e

theorem exists_of_outcome {r : Except Fault CModel} (h : outcome r = none) :
    ∃ s', r = .ok s' := by
  cases r with
  | ok s' => exact ⟨s', rfl⟩
  | error e => cases h

theorem outcome_error {r : Except Fault CModel} {e : Fault} (h : outcome r = some e) :
    r = .error e := by
  cases r with
  | ok s' => cases h
  | error e' =>
      cases h
      rfl

/-! ## Integer arithmetic to run with -/

/-- The integer part of an fp16 number. -/
def fp16ToInt (w : UInt16) : Int :=
  let e := w.toNat / 1024 % 32
  let v : Int := if e < 15 then 0 else ((1024 + w.toNat % 1024) * 2 ^ (e - 15) / 1024)
  if w.toNat < 32768 then v else -v

/-- The fp16 number of an integer, exact up to 2048 in size. -/
def intToFp16 (n : Int) : UInt16 :=
  if n = 0 then 0
  else
    let a := n.natAbs
    let e := a.log2
    let bits := (e + 15) * 1024 + (a * 2 ^ (10 - e) - 1024)
    UInt16.ofNat (if n < 0 then 32768 + bits else bits)

/-- The bytes of an fp16 array of integers. -/
def integerBytes (ns : List Int) : List UInt8 := ns.flatMap fun n => u16Bytes (intToFp16 n)

/-- Floating point restricted to small integers, where it is exact: the
model is run with it on such inputs. -/
@[reducible] def Fp32.integers : Fp32 Int where
  zero := 0
  add := (· + ·)
  sub := (· - ·)
  mul := (· * ·)
  div := (· / ·)
  exp x := if x = 0 then 1 else 0
  rsqrt x := if x = 1 then 1 else 0
  silu x := if x = 0 then 0 else x
  gt a b := decide (b < a)
  eq a b := decide (a = b)
  isnan _ := false
  signbit x := decide (x < 0)
  quietNaN := 0
  fp16ToFp32 := fp16ToInt
  fp32ToFp16 := intToFp16

end EclipseNpu.Runtime

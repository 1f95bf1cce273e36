import EclipseNpu.Runtime.CModel
import Mathlib.Algebra.BigOperators.Group.Finset.Basic
import Mathlib.Algebra.Group.Action.Defs
import Mathlib.Algebra.Order.BigOperators.Group.Finset
import Mathlib.Order.Interval.Finset.Nat

/-!
# Runtime — Cycles

The cycle model of a DMA (`runtime/lib/cmodel_cycles.cpp`): every row costs
a burst for each 16-byte block it touches, two bursts move in a cycle, and
the rounding up happens once, on the total.

Row addresses are `uint32_t`, the burst total is `uint64_t`; for rows that do
not wrap neither arithmetic does, and the total is a count of blocks.
-/

namespace EclipseNpu.Runtime

open EclipseNpu.Lib

def DMA_BURST_BYTES : UInt32 := 16
def DMA_BYTES_PER_CYCLE : UInt32 := 32
def DMA_FIXED_OVERHEAD : UInt32 := 16

def ceilDiv (a b : UInt64) : UInt64 := (a + b - 1) / b

/-- The bursts of row `i`: the block of its last byte, minus the block of its
first, plus one. -/
def rowBursts (desc : DMAParam) (stride : UInt32) (i : Nat) : UInt32 :=
  (desc.ddrAddr + stride * UInt32.ofNat i + desc.cols * DTYPE_SIZE - 1)
      / DMA_BURST_BYTES
    - (desc.ddrAddr + stride * UInt32.ofNat i) / DMA_BURST_BYTES + 1

/-- The stride of the DDR side. -/
def DMAParam.ddrStride (desc : DMAParam) (isLoad : Bool) : UInt32 :=
  if isLoad then desc.srcStride else desc.dstStride

/-- The `bursts` of `cyclesDma`. -/
def dmaBursts (desc : DMAParam) (isLoad : Bool) : UInt64 :=
  (List.range desc.rows.toNat).foldl
    (fun bursts i => bursts + (rowBursts desc (desc.ddrStride isLoad) i).toUInt64) 0

def cyclesDma (s : CModel) (descPtr : UInt32) (isLoad : Bool) :
    Except Fault UInt64 := do
  let desc ← readDesc DMAParam.load 24 descPtr s
  return ceilDiv (dmaBursts desc isLoad * DMA_BURST_BYTES.toUInt64)
      DMA_BYTES_PER_CYCLE.toUInt64 + DMA_FIXED_OVERHEAD.toUInt64

/-! ## Counting blocks -/

/-- The 16-byte aligned blocks that `n` bytes from `a` on touch. -/
def touchedBlocks (a n : Nat) : Finset Nat :=
  (Finset.range n).image fun j => (a + j) / 16

/-- The same number by the first and the last byte. -/
def blockCount (a n : Nat) : Nat := (a + n - 1) / 16 - a / 16 + 1

theorem touchedBlocks_eq {a n : Nat} (hn : 0 < n) :
    touchedBlocks a n = Finset.Icc (a / 16) ((a + n - 1) / 16) := by
  ext b
  simp only [touchedBlocks, Finset.mem_image, Finset.mem_range, Finset.mem_Icc]
  constructor
  · rintro ⟨j, hj, rfl⟩
    omega
  · rintro ⟨h1, h2⟩
    -- the first byte of the row inside block `b`
    exact ⟨b * 16 - a, by omega, by omega⟩

theorem card_touchedBlocks {a n : Nat} (hn : 0 < n) :
    (touchedBlocks a n).card = blockCount a n := by
  rw [touchedBlocks_eq hn, Nat.card_Icc, blockCount]
  omega

/-- **The 32-bit formula counts blocks**, for a row that does not wrap. -/
theorem rowBursts_toNat {desc : DMAParam} {stride : UInt32} {i : Nat}
    (hcols : 0 < desc.cols.toNat) (hbytes : desc.cols.toNat * 2 < 4294967296)
    (hrow : (desc.ddrAddr + stride * UInt32.ofNat i).toNat + desc.cols.toNat * 2
      ≤ 4294967296) :
    (rowBursts desc stride i).toNat
      = blockCount (desc.ddrAddr + stride * UInt32.ofNat i).toNat
        (desc.cols.toNat * 2) := by
  unfold rowBursts blockCount
  generalize desc.ddrAddr + stride * UInt32.ofNat i = a at hrow ⊢
  have ha := a.toNat_lt
  have hmul : (desc.cols * DTYPE_SIZE).toNat = desc.cols.toNat * 2 := by
    rw [UInt32.toNat_mul, DTYPE_SIZE_toNat, Nat.mod_eq_of_lt hbytes]
  have hlast : (a + desc.cols * DTYPE_SIZE - 1).toNat
      = a.toNat + desc.cols.toNat * 2 - 1 := by
    rw [UInt32.toNat_sub, UInt32.toNat_add, hmul]
    show (4294967296 - 1 + _ % 4294967296) % 4294967296 = _
    omega
  have hdiv : ∀ x : UInt32, (x / DMA_BURST_BYTES).toNat = x.toNat / 16 :=
    fun x => UInt32.toNat_div x 16
  rw [UInt32.toNat_add, UInt32.toNat_sub, hdiv, hdiv, hlast]
  show ((4294967296 - _ + _) % 4294967296 + 1) % 4294967296 = _
  omega

/-- The blocks of one row: fewer than `2 ^ 28`. -/
theorem blockCount_le {a n : Nat} (hn : 0 < n) (h : a + n ≤ 4294967296) :
    blockCount a n ≤ 268435456 := by
  unfold blockCount
  omega

/-- The burst total of a descriptor. -/
def DMAParam.blocks (desc : DMAParam) (isLoad : Bool) : Nat :=
  ∑ i ∈ Finset.range desc.rows.toNat, (touchedBlocks
    (desc.ddrAddr + desc.ddrStride isLoad * UInt32.ofNat i).toNat
    (desc.cols.toNat * 2)).card

/-- The rows of a descriptor do not wrap. -/
structure DMAParam.NoWrap (desc : DMAParam) (isLoad : Bool) : Prop where
  cols : 0 < desc.cols.toNat
  bytes : desc.cols.toNat * 2 < 4294967296
  rows : ∀ i < desc.rows.toNat,
    (desc.ddrAddr + desc.ddrStride isLoad * UInt32.ofNat i).toNat
      + desc.cols.toNat * 2 ≤ 4294967296

/-- The total fits `uint64_t` even when it is scaled to bytes. -/
theorem DMAParam.NoWrap.blocks_le {desc : DMAParam} {isLoad : Bool}
    (h : desc.NoWrap isLoad) : desc.blocks isLoad ≤ 4294967295 * 268435456 := by
  have hrow : ∀ i ∈ Finset.range desc.rows.toNat, (touchedBlocks
      (desc.ddrAddr + desc.ddrStride isLoad * UInt32.ofNat i).toNat
      (desc.cols.toNat * 2)).card ≤ 268435456 := fun i hi => by
    have hcols := h.cols
    rw [card_touchedBlocks (by omega)]
    exact blockCount_le (by omega) (h.rows i (Finset.mem_range.mp hi))
  have hsum := Finset.sum_le_card_nsmul _ _ _ hrow
  rw [Finset.card_range, smul_eq_mul] at hsum
  have hlt := desc.rows.toNat_lt
  exact hsum.trans (Nat.mul_le_mul_right _ (by omega))

/-- **The burst total of `cyclesDma` is the number of blocks.** -/
theorem dmaBursts_toNat {desc : DMAParam} {isLoad : Bool}
    (h : desc.NoWrap isLoad) : (dmaBursts desc isLoad).toNat = desc.blocks isLoad := by
  have hall := h.blocks_le
  unfold DMAParam.blocks at hall ⊢
  have hrows := h.rows
  unfold dmaBursts
  generalize desc.rows.toNat = n at hall hrows ⊢
  induction n with
  | zero => rfl
  | succ n ih =>
      rw [Finset.sum_range_succ] at hall ⊢
      have ih := ih (by omega) fun i hi => hrows i (by omega)
      have hcols := h.cols
      have hn := rowBursts_toNat hcols h.bytes (hrows n (by omega))
      rw [← card_touchedBlocks (by omega)] at hn
      rw [List.range_succ, List.foldl_append, List.foldl_cons, List.foldl_nil,
        UInt64.toNat_add, ih, UInt32.toNat_toUInt64, hn]
      exact Nat.mod_eq_of_lt (by omega)

/-- **`cyclesDma`**: half the blocks, rounded up once, plus 16. -/
theorem cyclesDma_eq {desc : DMAParam} {isLoad : Bool} {s : CModel}
    {descPtr : UInt32} (h : desc.NoWrap isLoad)
    (hread : readDesc DMAParam.load 24 descPtr s = .ok desc) :
    cyclesDma s descPtr isLoad
      = .ok (UInt64.ofNat ((desc.blocks isLoad + 1) / 2 + 16)) := by
  have hle := h.blocks_le
  have hb := dmaBursts_toNat h
  have hscaled : (dmaBursts desc isLoad * DMA_BURST_BYTES.toUInt64).toNat
      = desc.blocks isLoad * 16 := by
    rw [UInt64.toNat_mul, hb]
    show _ * 16 % 18446744073709551616 = _
    omega
  rw [cyclesDma, hread, ok_bind]
  show Except.ok _ = _
  congr 1
  apply UInt64.toNat.inj
  rw [UInt64.toNat_add, ceilDiv, UInt64.toNat_div, UInt64.toNat_sub, UInt64.toNat_add,
    hscaled, UInt64.toNat_ofNat']
  show ((18446744073709551616 - 1 + (_ + 32) % 18446744073709551616)
    % 18446744073709551616 / 32 + 16) % 18446744073709551616 = _
  omega

end EclipseNpu.Runtime

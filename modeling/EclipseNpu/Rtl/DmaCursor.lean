import EclipseNpu.Rtl.Dma
import EclipseNpu.Runtime.Cycles

/-!
# Rtl — DmaCursor

The registers of the engine as a position in the tile: row `row`, block
`blk` of that row. `regs` gives the register values of a position, and one
burst takes the registers of a position to those of the next
(`burstNext_regs`), for aligned and misaligned rows alike.
-/

namespace EclipseNpu.Rtl

open EclipseNpu.Lib EclipseNpu.Runtime

/-! ## Positions -/

/-- A position in the tile. -/
structure BurstPos where
  row : Nat
  blk : Nat
  deriving DecidableEq, Repr

/-- The rows as the engine sees them: where row `i` starts, and the bytes of
a row. -/
structure Rows where
  start : Nat → Nat
  bytes : Nat

namespace Rows

variable (r : Rows)

def next (p : BurstPos) : BurstPos :=
  if p.blk + 1 < blockCount (r.start p.row) r.bytes then ⟨p.row, p.blk + 1⟩
  else ⟨p.row + 1, 0⟩

/-- The position of burst `k`. -/
def posAt : Nat → BurstPos
  | 0 => ⟨0, 0⟩
  | k + 1 => r.next (posAt k)

/-- The blocks of the first `i` rows. -/
def blocksBefore (i : Nat) : Nat :=
  ∑ j ∈ Finset.range i, blockCount (r.start j) r.bytes

theorem blocksBefore_succ (i : Nat) :
    r.blocksBefore (i + 1) = r.blocksBefore i + blockCount (r.start i) r.bytes :=
  Finset.sum_range_succ _ _

theorem blocksBefore_mono {i j : Nat} (h : i ≤ j) :
    r.blocksBefore i ≤ r.blocksBefore j :=
  Finset.sum_le_sum_of_subset (Finset.range_mono h)

/-- Burst `k` is block `blk` of its row, counted over the rows before. -/
theorem posAt_spec (k : Nat) :
    (r.posAt k).blk < blockCount (r.start (r.posAt k).row) r.bytes
      ∧ k = r.blocksBefore (r.posAt k).row + (r.posAt k).blk := by
  induction k with
  | zero => exact ⟨Nat.succ_pos _, rfl⟩
  | succ k ih =>
      obtain ⟨hlt, hk⟩ := ih
      rw [posAt, next]
      split
      case isTrue h => exact ⟨h, by dsimp only; omega⟩
      case isFalse h =>
        refine ⟨Nat.succ_pos _, ?_⟩
        rw [r.blocksBefore_succ]
        dsimp only
        omega

/-- **The engine is in the tile exactly for the first `blocksBefore rows`
bursts.** -/
theorem posAt_row_lt (k rows : Nat) :
    (r.posAt k).row < rows ↔ k < r.blocksBefore rows := by
  obtain ⟨hlt, hk⟩ := r.posAt_spec k
  constructor
  · intro h
    have h1 := r.blocksBefore_mono (show (r.posAt k).row + 1 ≤ rows from h)
    rw [r.blocksBefore_succ] at h1
    omega
  · intro h
    by_contra hge
    have h1 := r.blocksBefore_mono (Nat.le_of_not_lt hge)
    omega

/-! ## Bytes -/

/-- The first byte of a position's block. -/
def blockAddr (p : BurstPos) : Nat := (r.start p.row / 16 + p.blk) * 16

/-- The bytes of the row before the block. -/
def consumed (p : BurstPos) : Nat := r.blockAddr p - r.start p.row

/-- The offset of the row in the block. -/
def lo (p : BurstPos) : Nat := r.start p.row - r.blockAddr p

/-- The bytes of the burst. -/
def take (p : BurstPos) : Nat := min (r.bytes - r.consumed p) (16 - r.lo p)

/-- A position inside a row that ends below `2 ^ 32`. -/
structure InRow (p : BurstPos) : Prop where
  pos : 0 < r.bytes
  bytes : r.bytes < 4294967296
  fits : r.start p.row + r.bytes ≤ 4294967296
  blk : p.blk < blockCount (r.start p.row) r.bytes

theorem take_le (p : BurstPos) : r.take p ≤ 16 := by
  unfold take
  omega

/-- The burst starts where the bytes before it end. -/
theorem blockAddr_add_lo (p : BurstPos) :
    r.blockAddr p + r.lo p = r.start p.row + r.consumed p := by
  unfold lo consumed
  omega

variable {r}

theorem InRow.consumed_lt {p : BurstPos} (h : r.InRow p) :
    r.consumed p < r.bytes := by
  have h1 := h.blk
  have h2 := h.pos
  unfold consumed blockAddr
  unfold blockCount at h1
  omega

/-- A burst ends its row exactly in the row's last block. -/
theorem InRow.last_iff {p : BurstPos} (h : r.InRow p) :
    r.consumed p + r.take p = r.bytes
      ↔ ¬ p.blk + 1 < blockCount (r.start p.row) r.bytes := by
  have h1 := h.blk
  have h2 := h.pos
  unfold take consumed lo blockAddr
  unfold blockCount at h1 ⊢
  omega

/-- The next block of the same row. -/
theorem InRow.consumed_next {p : BurstPos} (h : r.InRow p)
    (hb : p.blk + 1 < blockCount (r.start p.row) r.bytes) :
    r.consumed ⟨p.row, p.blk + 1⟩ = r.consumed p + r.take p
      ∧ r.blockAddr ⟨p.row, p.blk + 1⟩ = r.blockAddr p + 16 := by
  have h2 := h.pos
  unfold take consumed lo blockAddr
  unfold blockCount at hb
  dsimp only
  omega

theorem InRow.blockAddr_lt {p : BurstPos} (h : r.InRow p) :
    r.blockAddr p < 4294967296 := by
  have h1 := h.blk
  have h2 := h.fits
  have h3 := h.pos
  unfold blockAddr
  unfold blockCount at h1
  omega

end Rows

/-! ## Register values -/

/-- The rows a descriptor describes. -/
def Desc.toRows (d : Desc) : Rows where
  start i := (d.ddrAddr.toNat + d.srcStride.toNat * i) % 4294967296
  bytes := d.rowBytes.toNat

/-- The registers at a position. -/
def regs (d : Desc) (p : BurstPos) : Cursor :=
  { row := BitVec.ofNat 32 p.row
    rstart := BitVec.ofNat 32 (d.toRows.start p.row)
    blk := BitVec.ofNat 32 (d.toRows.blockAddr p)
    left := BitVec.ofNat 32 (d.toRows.bytes - d.toRows.consumed p) }

theorem toNat_ofNat32 {n : Nat} (h : n < 4294967296) :
    (BitVec.ofNat 32 n).toNat = n := by
  rw [BitVec.toNat_ofNat, Nat.mod_eq_of_lt h]

/-- `{a[31:4], 4'd0}`. -/
theorem toNat_blockBits (a : BitVec 32) :
    (a.extractLsb' 4 28 ++ 0#4 : BitVec 32).toNat = a.toNat / 16 * 16 := by
  have ha := a.isLt
  rw [BitVec.toNat_append, BitVec.extractLsb'_toNat, Nat.shiftRight_eq_div_pow,
    BitVec.toNat_zero, Nat.or_zero, Nat.shiftLeft_eq]
  omega

/-- `a & 32'hFFFFFFF0` is the same. -/
theorem and_mask (a : BitVec 32) :
    a &&& 0xFFFFFFF0#32 = (a.extractLsb' 4 28 ++ 0#4 : BitVec 32) := by
  have hmask : ∀ i < 32, (0xFFFFFFF0#32).getLsbD i = decide (4 ≤ i) := by decide
  ext i hi
  rw [BitVec.getElem_and, ← BitVec.getLsbD_eq_getElem (x := 0xFFFFFFF0#32), hmask i hi,
    BitVec.getElem_append]
  by_cases h4 : i < 4
  · simp [h4]
  · rw [dif_neg h4, decide_eq_true (by omega), Bool.and_true,
      BitVec.getElem_extractLsb', BitVec.getLsbD_eq_getElem (by omega)]
    congr 1
    omega

/-! ## A burst -/

theorem burstAvail_toNat (c : Cursor) :
    (burstAvail c).toNat = 16 - (burstLo c).toNat := by
  have hlo := (burstLo c).isLt
  rw [burstAvail, BitVec.toNat_sub, BitVec.toNat_setWidth]
  show (32 - (burstLo c).toNat % 32 + 16) % 32 = _
  omega

/-- The bytes of a burst: up to the end of the row or of the block. -/
theorem burstTake_toNat (c : Cursor) :
    (burstTake c).toNat = min c.left.toNat (16 - (burstLo c).toNat) := by
  have havail := burstAvail_toNat c
  have hwide : ((burstAvail c).setWidth 32).toNat = 16 - (burstLo c).toNat := by
    rw [BitVec.toNat_setWidth, havail]
    omega
  rw [burstTake]
  by_cases hc : c.left < (burstAvail c).setWidth 32
  · rw [if_pos hc, BitVec.extractLsb'_toNat, Nat.shiftRight_zero]
    rw [BitVec.lt_def, hwide] at hc
    omega
  · rw [if_neg hc, havail]
    rw [BitVec.lt_def, hwide] at hc
    omega

theorem burstLeftRaw_toNat (c : Cursor) :
    (burstLeftRaw c).toNat = c.left.toNat - (burstTake c).toNat := by
  have hleft := c.left.isLt
  have htake := burstTake_toNat c
  rw [burstLeftRaw, BitVec.toNat_sub, BitVec.toNat_setWidth]
  omega

/-! ## A burst at a position -/

theorem start_lt (d : Desc) (i : Nat) : d.toRows.start i < 4294967296 :=
  Nat.mod_lt _ (by decide)

section Burst

variable {d : Desc} {p : BurstPos}

theorem regs_blk (h : d.toRows.InRow p) :
    (regs d p).blk.toNat = d.toRows.blockAddr p := toNat_ofNat32 h.blockAddr_lt

theorem regs_rstart (d : Desc) (p : BurstPos) :
    (regs d p).rstart.toNat = d.toRows.start p.row := toNat_ofNat32 (start_lt d p.row)

theorem regs_left (h : d.toRows.InRow p) :
    (regs d p).left.toNat = d.toRows.bytes - d.toRows.consumed p := by
  have := h.bytes
  exact toNat_ofNat32 (by omega)

/-- `a_lo` at a position. -/
theorem burstLo_regs (h : d.toRows.InRow p) :
    (burstLo (regs d p)).toNat = d.toRows.lo p := by
  have hblk := regs_blk h
  have hstart := regs_rstart d p
  have hbase := toNat_blockBits (regs d p).rstart
  rw [hstart] at hbase
  have hcond : (regs d p).blk
      = ((regs d p).rstart.extractLsb' 4 28 ++ 0#4 : BitVec 32) ↔ p.blk = 0 := by
    rw [← BitVec.toNat_inj, hblk, hbase]
    unfold Rows.blockAddr
    omega
  rw [burstLo]
  by_cases h0 : p.blk = 0
  · rw [if_pos (hcond.mpr h0), BitVec.extractLsb'_toNat, Nat.shiftRight_zero, hstart]
    unfold Rows.lo Rows.blockAddr
    rw [h0]
    omega
  · rw [if_neg fun hc => h0 (hcond.mp hc)]
    unfold Rows.lo Rows.blockAddr
    show 0 = _
    omega

/-- `a_take` at a position. -/
theorem burstTake_regs (h : d.toRows.InRow p) :
    (burstTake (regs d p)).toNat = d.toRows.take p := by
  rw [burstTake_toNat, regs_left h, burstLo_regs h]
  rfl

theorem burstLeftRaw_regs (h : d.toRows.InRow p) :
    (burstLeftRaw (regs d p)).toNat
      = d.toRows.bytes - d.toRows.consumed p - d.toRows.take p := by
  rw [burstLeftRaw_toNat, regs_left h, burstTake_regs h]

theorem start_succ (d : Desc) (i : Nat) :
    BitVec.ofNat 32 (d.toRows.start i) + d.srcStride
      = BitVec.ofNat 32 (d.toRows.start (i + 1)) := by
  apply BitVec.eq_of_toNat_eq
  rw [BitVec.toNat_add, toNat_ofNat32 (start_lt d i), toNat_ofNat32 (start_lt d (i + 1))]
  show ((d.ddrAddr.toNat + d.srcStride.toNat * i) % 4294967296 + d.srcStride.toNat)
    % 4294967296 = (d.ddrAddr.toNat + d.srcStride.toNat * (i + 1)) % 4294967296
  rw [Nat.mul_add, Nat.mul_one]
  omega

/-- The registers at the start of a row. -/
theorem regs_rowStart (d : Desc) (i : Nat) :
    regs d ⟨i, 0⟩ = { row := BitVec.ofNat 32 i
                      rstart := BitVec.ofNat 32 (d.toRows.start i)
                      blk := BitVec.ofNat 32 (d.toRows.start i) &&& 0xFFFFFFF0#32
                      left := d.rowBytes } := by
  have hs := start_lt d i
  have hblk : BitVec.ofNat 32 (d.toRows.blockAddr ⟨i, 0⟩)
      = BitVec.ofNat 32 (d.toRows.start i) &&& 0xFFFFFFF0#32 := by
    apply BitVec.eq_of_toNat_eq
    rw [and_mask, toNat_blockBits, toNat_ofNat32 hs]
    unfold Rows.blockAddr
    exact toNat_ofNat32 (by dsimp only; omega)
  have hleft : d.toRows.bytes - d.toRows.consumed ⟨i, 0⟩ = d.rowBytes.toNat := by
    unfold Rows.consumed Rows.blockAddr
    show d.rowBytes.toNat - _ = _
    dsimp only
    omega
  rw [regs, hblk, hleft, BitVec.ofNat_toNat, BitVec.setWidth_eq]

/-- **One burst moves the registers to the next position.** -/
theorem burstNext_regs (h : d.toRows.InRow p) :
    burstNext d (regs d p) = regs d (d.toRows.next p) := by
  have hraw := burstLeftRaw_regs h
  have hcons := h.consumed_lt
  have htake : d.toRows.take p ≤ d.toRows.bytes - d.toRows.consumed p := by
    unfold Rows.take
    omega
  have hzero : burstLeftRaw (regs d p) = 0#32
      ↔ ¬ p.blk + 1 < blockCount (d.toRows.start p.row) d.toRows.bytes := by
    rw [← h.last_iff, ← BitVec.toNat_inj, hraw]
    show _ = 0 ↔ _
    omega
  rw [burstNext, Rows.next]
  by_cases hb : p.blk + 1 < blockCount (d.toRows.start p.row) d.toRows.bytes
  · rw [if_neg fun hc => hzero.mp hc hb, if_pos hb]
    obtain ⟨hc, ha⟩ := h.consumed_next hb
    have hblk : (regs d p).blk + 16#32
        = BitVec.ofNat 32 (d.toRows.blockAddr ⟨p.row, p.blk + 1⟩) := by
      rw [ha]
      exact (BitVec.ofNat_add _ _).symm
    have hleft : burstLeftRaw (regs d p) = BitVec.ofNat 32
        (d.toRows.bytes - d.toRows.consumed ⟨p.row, p.blk + 1⟩) := by
      apply BitVec.eq_of_toNat_eq
      have := h.bytes
      rw [hraw, hc, toNat_ofNat32 (by omega)]
      omega
    rw [hblk, hleft]
    rfl
  · rw [if_pos (hzero.mpr hb), if_neg hb, regs_rowStart]
    have hrow : (regs d p).row + 1#32 = BitVec.ofNat 32 (p.row + 1) :=
      (BitVec.ofNat_add _ _).symm
    have hstart : (regs d p).rstart + d.srcStride
        = BitVec.ofNat 32 (d.toRows.start (p.row + 1)) := start_succ d p.row
    rw [hrow, hstart]

/-- The registers a descriptor starts with are those of the first block. -/
theorem firstCursor_eq (d : Desc) : State.firstCursor d = regs d ⟨0, 0⟩ := by
  have hstart : BitVec.ofNat 32 (d.toRows.start 0) = d.ddrAddr := by
    apply BitVec.eq_of_toNat_eq
    rw [toNat_ofNat32 (start_lt d 0)]
    show (d.ddrAddr.toNat + d.srcStride.toNat * 0) % 4294967296 = _
    have := d.ddrAddr.isLt
    omega
  rw [regs_rowStart, hstart]
  rfl

end Burst

end EclipseNpu.Rtl

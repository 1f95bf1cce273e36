import EclipseNpu.Rtl.DmaRun
import Mathlib.Data.List.Perm.Basic

/-!
# Rtl — DmaWrites

The SRAM write side. The words of a tile are numbered row by row; burst `k`
carries the words from `wordsBefore k` on, and the lanes of the two slots of
one cycle are consecutive words in port order (`ports_words`).
-/

namespace EclipseNpu.Rtl

open EclipseNpu.Lib EclipseNpu.Runtime

variable {AW LAST : Nat}

/-! ## Words -/

/-- The words of the first `k` bursts. -/
def wordsBefore (r : Rows) : Nat → Nat
  | 0 => 0
  | k + 1 => wordsBefore r k + r.take (r.posAt k) / 2

/-- The words of the two bursts of a cycle. -/
theorem wordsBefore_pair (r : Rows) (c : Nat) :
    wordsBefore r (2 * (c + 1)) = wordsBefore r (2 * c)
      + r.take (r.posAt (2 * c)) / 2 + r.take (r.posAt (2 * c + 1)) / 2 := rfl

/-- Word `t` of a tile of `cols` columns: where it goes, and what it is. -/
def tileWord (d : Desc) (rd : Nat → UInt8) (AW t : Nat) : BitVec AW × BitVec 16 :=
  (d.sramAddr.extractLsb' 1 AW + BitVec.ofNat AW t,
    (loadU16 rd (d.toRows.start (t / d.cols.toNat)
      + 2 * (t % d.cols.toNat))).toBitVec)

/-- The words `a` to `a + n - 1`. -/
def tileWords (d : Desc) (rd : Nat → UInt8) (AW a n : Nat) :
    List (BitVec AW × BitVec 16) :=
  (List.range n).map fun j => tileWord d rd AW (a + j)

theorem tileWords_append (d : Desc) (rd : Nat → UInt8) (AW a m n : Nat) :
    tileWords d rd AW a (m + n)
      = tileWords d rd AW a m ++ tileWords d rd AW (a + m) n := by
  unfold tileWords
  rw [List.range_add, List.map_append, List.map_map]
  congr 1
  exact List.map_congr_left fun j _ => by simp [Nat.add_assoc]

/-- Rows of whole words: what the word numbering needs. -/
structure Desc.Words (d : Desc) : Prop where
  fits : d.Fits
  bytes : d.toRows.bytes = d.cols.toNat * 2
  even : ∀ i, d.toRows.start i % 2 = 0

section Words

variable {d : Desc}

theorem Desc.Words.even_pos (h : d.Words) (p : BurstPos) :
    d.toRows.lo p % 2 = 0 ∧ d.toRows.consumed p % 2 = 0 ∧ d.toRows.take p % 2 = 0 := by
  have hs := h.even p.row
  have hb := h.bytes
  unfold Rows.take Rows.lo Rows.consumed Rows.blockAddr
  omega

/-- Burst `k` starts at its row and the words of the row before it. -/
theorem wordsBefore_eq (h : d.Words) {k : Nat} (hk : k ≤ d.bursts) :
    wordsBefore d.toRows k = (d.toRows.posAt k).row * d.cols.toNat
      + d.toRows.consumed (d.toRows.posAt k) / 2 := by
  have hfirst : ∀ i, d.toRows.consumed ⟨i, 0⟩ = 0 := fun i => by
    unfold Rows.consumed Rows.blockAddr
    dsimp only
    omega
  induction k with
  | zero => rw [wordsBefore, Rows.posAt, hfirst, Nat.zero_mul]
  | succ k ih =>
      have hin := h.fits.inRow (show k < d.bursts by omega)
      obtain ⟨-, hc, ht⟩ := h.even_pos (d.toRows.posAt k)
      rw [wordsBefore, ih (by omega), Rows.posAt, Rows.next]
      by_cases hb : (d.toRows.posAt k).blk + 1
          < blockCount (d.toRows.start (d.toRows.posAt k).row) d.toRows.bytes
      · rw [if_pos hb, (hin.consumed_next hb).1]
        dsimp only
        omega
      · have hend := hin.last_iff.mpr hb
        have hbytes := h.bytes
        rw [if_neg hb, hfirst]
        dsimp only
        rw [Nat.add_mul, Nat.one_mul]
        omega

/-- The whole tile. -/
theorem wordsBefore_bursts (h : d.Words) :
    wordsBefore d.toRows d.bursts = d.rows.toNat * d.cols.toNat := by
  obtain ⟨hlt, hk⟩ := d.toRows.posAt_spec d.bursts
  have hge := mt (d.toRows.posAt_row_lt d.bursts d.rows.toNat).mp
    (show ¬ d.bursts < d.toRows.blocksBefore d.rows.toNat from Nat.lt_irrefl _)
  have hmono := d.toRows.blocksBefore_mono (Nat.le_of_not_lt hge)
  have hB : d.toRows.blocksBefore d.rows.toNat = d.bursts := rfl
  have hrow : (d.toRows.posAt d.bursts).row = d.rows.toNat := by
    by_contra hne
    have hmono' := d.toRows.blocksBefore_mono
      (show d.rows.toNat + 1 ≤ (d.toRows.posAt d.bursts).row by omega)
    rw [d.toRows.blocksBefore_succ] at hmono'
    unfold blockCount at hmono'
    omega
  rw [hrow] at hk
  have hblk : (d.toRows.posAt d.bursts).blk = 0 := by omega
  rw [wordsBefore_eq h (Nat.le_refl _), hrow]
  unfold Rows.consumed Rows.blockAddr
  rw [hblk]
  omega

theorem wordsBefore_mono (r : Rows) {j k : Nat} (h : j ≤ k) :
    wordsBefore r j ≤ wordsBefore r k := by
  induction h with
  | refl => exact Nat.le_refl _
  | step _ ih => exact ih.trans (Nat.le_add_right _ _)

variable (AW) in
/-- The address of word `j` of burst `k`, in DDR. -/
theorem tileWord_burst (h : d.Words) (rd : Nat → UInt8) {k j : Nat}
    (hk : k < d.bursts) (hj : j < d.toRows.take (d.toRows.posAt k) / 2) :
    (tileWord d rd AW (wordsBefore d.toRows k + j)).2
      = (loadU16 rd (d.toRows.blockAddr (d.toRows.posAt k)
        + 2 * (d.toRows.lo (d.toRows.posAt k) / 2 + j))).toBitVec := by
  obtain ⟨hl, hc, ht⟩ := h.even_pos (d.toRows.posAt k)
  have hadd := d.toRows.blockAddr_add_lo (d.toRows.posAt k)
  have hle : d.toRows.take (d.toRows.posAt k)
      ≤ d.toRows.bytes - d.toRows.consumed (d.toRows.posAt k) := by
    unfold Rows.take
    omega
  have hbytes := h.bytes
  have hcol : d.toRows.consumed (d.toRows.posAt k) / 2 + j < d.cols.toNat := by omega
  have hpos : wordsBefore d.toRows k + j = (d.toRows.posAt k).row * d.cols.toNat
      + (d.toRows.consumed (d.toRows.posAt k) / 2 + j) := by
    rw [wordsBefore_eq h (by omega), Nat.add_assoc]
  have hdiv : (wordsBefore d.toRows k + j) / d.cols.toNat = (d.toRows.posAt k).row := by
    rw [hpos, flat_div hcol]
  have hmod : (wordsBefore d.toRows k + j) % d.cols.toNat
      = d.toRows.consumed (d.toRows.posAt k) / 2 + j := by
    rw [hpos, flat_mod hcol]
  show (loadU16 rd _).toBitVec = _
  rw [hdiv, hmod]
  congr 2
  omega

end Words

/-! ## Lanes -/

/-- A lane of a firing slot. -/
theorem writeLane_eq (lo n : BitVec 4) (base : BitVec AW) (rdata : BitVec 128) {w : Nat}
    (hw : w < 8) : State.writeLane true lo n base rdata w
      = if lo.toNat ≤ w ∧ w < lo.toNat + n.toNat then
          some (base + BitVec.ofNat AW (w - lo.toNat), rdata.extractLsb' (16 * w) 16)
        else none := by
  have hwn : (BitVec.ofNat 5 w).toNat = w := by
    rw [BitVec.toNat_ofNat]
    omega
  have hlo : (lo.setWidth 5).toNat = lo.toNat := by
    rw [BitVec.toNat_setWidth]
    omega
  have hn : (lo.setWidth 5 + n.setWidth 5).toNat = lo.toNat + n.toNat := by
    rw [BitVec.toNat_add, hlo, BitVec.toNat_setWidth]
    omega
  have hle : lo.setWidth 5 ≤ BitVec.ofNat 5 w ↔ lo.toNat ≤ w := by
    rw [BitVec.le_def, hlo, hwn]
  have hlt : BitVec.ofNat 5 w < lo.setWidth 5 + n.setWidth 5
      ↔ w < lo.toNat + n.toNat := by
    rw [BitVec.lt_def, hn, hwn]
  by_cases hc : lo.toNat ≤ w ∧ w < lo.toNat + n.toNat
  · have hsub : (BitVec.ofNat 5 w - lo.setWidth 5).setWidth AW
        = BitVec.ofNat AW (w - lo.toNat) := by
      apply BitVec.eq_of_toNat_eq
      rw [BitVec.toNat_setWidth, BitVec.toNat_sub, hlo, hwn, BitVec.toNat_ofNat]
      congr 1
      show (32 - lo.toNat + w) % 32 = _
      omega
    rw [if_pos hc, State.writeLane, decide_eq_true (hle.mpr hc.1),
      decide_eq_true (hlt.mpr hc.2), hsub]
    rfl
  · rw [if_neg hc, State.writeLane]
    refine if_neg fun hfire => hc ?_
    rw [Bool.and_eq_true, Bool.and_eq_true, decide_eq_true_eq, decide_eq_true_eq]
      at hfire
    exact ⟨hle.mp hfire.1.2, hlt.mp hfire.2⟩

/-- The lanes of a slot, in order. -/
theorem lanes_eq {lo n : BitVec 4} (h : lo.toNat + n.toNat ≤ 8)
    (base : BitVec AW) (rdata : BitVec 128) :
    (List.range 8).filterMap (State.writeLane true lo n base rdata)
      = (List.range n.toNat).map fun j => (base + BitVec.ofNat AW j,
        rdata.extractLsb' (16 * (lo.toNat + j)) 16) := by
  have hlow : (List.range lo.toNat).filterMap
      (State.writeLane true lo n base rdata) = [] := by
    refine List.filterMap_eq_nil_iff.mpr fun w hw => ?_
    have hw := List.mem_range.mp hw
    rw [writeLane_eq lo n base rdata (by omega), if_neg (by omega)]
  have hmid : (List.range n.toNat).filterMap
      (State.writeLane true lo n base rdata ∘ (lo.toNat + ·))
      = (List.range n.toNat).map fun j => (base + BitVec.ofNat AW j,
        rdata.extractLsb' (16 * (lo.toNat + j)) 16) := by
    rw [← List.filterMap_eq_map]
    refine List.filterMap_congr fun j hj => ?_
    have hj := List.mem_range.mp hj
    show State.writeLane true lo n base rdata (lo.toNat + j) = _
    rw [writeLane_eq lo n base rdata (by omega), if_pos (by omega),
      Nat.add_sub_cancel_left]
    rfl
  have hhigh : (List.range (8 - (lo.toNat + n.toNat))).filterMap
      (State.writeLane true lo n base rdata ∘ (lo.toNat + n.toNat + ·)) = [] := by
    refine List.filterMap_eq_nil_iff.mpr fun w hw => ?_
    have hw := List.mem_range.mp hw
    show State.writeLane true lo n base rdata (lo.toNat + n.toNat + w) = none
    rw [writeLane_eq lo n base rdata (by omega), if_neg (by omega)]
  rw [show 8 = lo.toNat + n.toNat + (8 - (lo.toNat + n.toNat)) by omega,
    List.range_add, List.filterMap_append, List.filterMap_map, hhigh,
    List.range_add, List.filterMap_append, List.filterMap_map, hlow, hmid,
    List.nil_append, List.append_nil]

/-- The ports in order: the lanes of slot A, then those of slot B. -/
theorem ports_eq {NBANK : Nat} (hN : 16 ≤ NBANK) (s : State AW LAST)
    (rdata : Fin 2 → BitVec 128) (rvalid : Fin 2 → Bool) :
    (List.range NBANK).filterMap (s.wrPort rdata rvalid)
      = (List.range 8).filterMap (State.writeLane
          ((s.pl (Fin.last LAST)).v0 && rvalid 0) (s.pl (Fin.last LAST)).lo0
          (s.pl (Fin.last LAST)).n0 (s.pl (Fin.last LAST)).addr (rdata 0))
        ++ (List.range 8).filterMap (State.writeLane
          ((s.pl (Fin.last LAST)).v1 && rvalid 1) (s.pl (Fin.last LAST)).lo1
          (s.pl (Fin.last LAST)).n1
          ((s.pl (Fin.last LAST)).addr + (s.pl (Fin.last LAST)).n0.setWidth AW)
          (rdata 1)) := by
  have hhigh : (List.range (NBANK - 16)).filterMap
      (s.wrPort rdata rvalid ∘ (8 + 8 + ·)) = [] := by
    refine List.filterMap_eq_nil_iff.mpr fun w _ => ?_
    show s.wrPort rdata rvalid (8 + 8 + w) = none
    rw [State.wrPort, if_neg (by omega), if_neg (by omega)]
  rw [show NBANK = 8 + 8 + (NBANK - 16) by omega, List.range_add,
    List.filterMap_append, List.filterMap_map, hhigh, List.append_nil,
    List.range_add, List.filterMap_append, List.filterMap_map]
  rfl

/-! ## The words of a burst -/

/-- The lanes of a burst: its words from `base` on. -/
def burstWords (c : Cursor) (base : BitVec AW) (rdata : BitVec 128) :
    List (BitVec AW × BitVec 16) :=
  (List.range ((burstTake c).toNat / 2)).map fun j =>
    (base + BitVec.ofNat AW j,
      rdata.extractLsb' (16 * ((burstLo c).toNat / 2 + j)) 16)

/-- The words of the first `k` bursts of a walk. -/
def takenBefore (pos : Nat → Cursor) : Nat → Nat
  | 0 => 0
  | k + 1 => takenBefore pos k + (burstTake (pos k)).toNat / 2

theorem takenBefore_pair (pos : Nat → Cursor) (c : Nat) :
    takenBefore pos (2 * (c + 1)) = takenBefore pos (2 * c)
      + (burstTake (pos (2 * c))).toNat / 2
      + (burstTake (pos (2 * c + 1))).toNat / 2 := rfl

/-- A burst stays inside its block. -/
theorem burst_le_block (c : Cursor) : (burstLo c).toNat + (burstTake c).toNat ≤ 16 := by
  have hlo := (burstLo c).isLt
  have htake := burstTake_toNat c
  omega

/-- The lane fields a burst leaves in the pipeline. -/
theorem lane_fields (c : Cursor) :
    (((burstLo c).extractLsb' 1 3).setWidth 4).toNat = (burstLo c).toNat / 2
      ∧ ((burstTake c).extractLsb' 1 4).toNat = (burstTake c).toNat / 2 := by
  have hle := burst_le_block c
  have hlo := (burstLo c).isLt
  rw [BitVec.toNat_setWidth, BitVec.extractLsb'_toNat, BitVec.extractLsb'_toNat,
    Nat.shiftRight_eq_div_pow, Nat.shiftRight_eq_div_pow]
  omega

/-- A firing slot writes the words of its burst. -/
theorem slot_words (c : Cursor) (base : BitVec AW) (rdata : BitVec 128) :
    (List.range 8).filterMap (State.writeLane true
      (((burstLo c).extractLsb' 1 3).setWidth 4) ((burstTake c).extractLsb' 1 4)
      base rdata) = burstWords c base rdata := by
  have hle := burst_le_block c
  obtain ⟨hlo, hn⟩ := lane_fields c
  rw [lanes_eq (by omega), hlo, hn]
  rfl

variable (AW) in
/-- `{{(AW-4){1'b0}}, n}` for the words of a burst. -/
theorem setWidth_words {n : BitVec 4} {m : Nat} (h : n.toNat = m) :
    n.setWidth AW = BitVec.ofNat AW m := by
  apply BitVec.eq_of_toNat_eq
  rw [BitVec.toNat_setWidth, BitVec.toNat_ofNat, h]

/-! ## The writes of a cycle -/

section Cycle

variable {d : Desc} {rd : Nat → UInt8} {pos : Nat → Cursor} {bursts : Nat}

/-- By position, the words of the bursts are those of the blocks. -/
theorem takenBefore_posAt (h : d.Words) {k : Nat} (hk : k ≤ d.bursts) :
    takenBefore (fun k => regs d (d.toRows.posAt k)) k = wordsBefore d.toRows k := by
  induction k with
  | zero => rfl
  | succ k ih =>
      rw [takenBefore, ih (by omega), burstTake_regs (h.fits.inRow (by omega))]
      rfl

variable (rd) in
/-- With the block it asked for, a burst writes its words of the tile. -/
theorem burstWords_posAt (h : d.Words) {k : Nat} (hk : k < d.bursts)
    (rdata : BitVec 128) (hdata : ∀ w < 8, rdata.extractLsb' (16 * w) 16
      = (loadU16 rd ((regs d (d.toRows.posAt k)).blk.toNat + 2 * w)).toBitVec) :
    burstWords (regs d (d.toRows.posAt k)) (d.sramAddr.extractLsb' 1 AW
        + BitVec.ofNat AW (wordsBefore d.toRows k)) rdata
      = tileWords d rd AW (wordsBefore d.toRows k)
        (d.toRows.take (d.toRows.posAt k) / 2) := by
  have hin := h.fits.inRow hk
  have hle := burst_le_block (regs d (d.toRows.posAt k))
  rw [regs_blk hin] at hdata
  rw [burstTake_regs hin, burstLo_regs hin] at hle
  rw [burstWords, tileWords, burstTake_regs hin, burstLo_regs hin]
  refine List.map_congr_left fun j hj => ?_
  have hj := List.mem_range.mp hj
  have hword := tileWord_burst AW h rd hk hj
  rw [hdata _ (by omega), ← hword]
  refine Prod.ext ?_ rfl
  show _ = d.sramAddr.extractLsb' 1 AW + BitVec.ofNat AW (_ + j)
  rw [BitVec.add_assoc, ← BitVec.ofNat_add]

/-- The DDR answers every request `LAST + 1` cycles later, with the block at
the requested address. -/
structure DdrReturns (d : Desc) (rd : Nat → UInt8) (σ : Nat → State AW LAST)
    (rdata : Nat → Fin 2 → BitVec 128) (rvalid : Nat → Fin 2 → Bool) : Prop where
  valid : ∀ c slot, rvalid (c + (LAST + 1)) slot = (σ c).ddrRen d slot
  data : ∀ c slot, (σ c).ddrRen d slot = true → ∀ w < 8,
    (rdata (c + (LAST + 1)) slot).extractLsb' (16 * w) 16
      = (loadU16 rd (((σ c).ddrRaddr d slot).toNat + 2 * w)).toBitVec

namespace Transfer

variable {start : Nat → Bool} {σ : Nat → State AW LAST}

/-- The write pointer counts the words of the bursts issued. -/
theorem wptr_run (t : Transfer d start σ) (w : Walk d pos bursts) {c : Nat}
    (hc : c ≤ lastRun LAST bursts) :
    (σ (2 + c)).wptr = d.sramAddr.extractLsb' 1 AW
      + BitVec.ofNat AW (takenBefore pos (min (2 * c) bursts)) := by
  induction c with
  | zero =>
      obtain ⟨-, -, hw⟩ := t.first w
      rw [Nat.mul_zero, Nat.zero_min]
      show _ = _ + BitVec.ofNat AW 0
      rw [BitVec.add_zero]
      exact hw
  | succ c ih =>
      obtain ⟨hs, hcur⟩ := t.run w (show c ≤ _ by omega)
      obtain ⟨h0, h1⟩ := t.issue w (show c ≤ _ by omega)
      rw [← Nat.add_assoc, t.wptr_succ, State.nextWptr, if_neg (by simp [hs]), h0,
        ih (by omega)]
      by_cases hc0 : 2 * c < bursts
      · rw [Nat.min_eq_left (by omega)] at hcur ⊢
        have hA := setWidth_words AW (lane_fields (pos (2 * c))).2
        rw [if_pos (decide_eq_true hc0), hcur, hA, State.n1, h1]
        by_cases hc1 : 2 * c + 1 < bursts
        · have hB := setWidth_words AW (lane_fields (pos (2 * c + 1))).2
          rw [if_pos (decide_eq_true hc1), State.burstB, hcur, w.next _ hc0, hB,
            Nat.min_eq_left (by omega), BitVec.add_assoc, BitVec.add_assoc,
            ← BitVec.ofNat_add, ← BitVec.ofNat_add]
          rw [takenBefore_pair, Nat.add_assoc]
        · rw [if_neg (by simp [hc1]), BitVec.setWidth_zero, BitVec.add_zero,
            BitVec.add_assoc, ← BitVec.ofNat_add,
            show min (2 * (c + 1)) bursts = 2 * c + 1 by omega]
          rfl
      · rw [if_neg (by simp [hc0]), Nat.min_eq_right (by omega),
          Nat.min_eq_right (by omega)]

/-- **The ports, cycle by cycle**: the lanes of the bursts issued
`DDR_LATENCY` cycles ago. -/
theorem ports_run (t : Transfer d start σ) (w : Walk d pos bursts) {NBANK : Nat}
    (hN : 16 ≤ NBANK) {rvalid : Nat → Fin 2 → Bool}
    (hvalid : ∀ c slot, rvalid (c + (LAST + 1)) slot = (σ c).ddrRen d slot) {c : Nat}
    (hc : c ≤ lastRun LAST bursts) (rdata : Fin 2 → BitVec 128) :
    (List.range NBANK).filterMap
        ((σ (2 + c + (LAST + 1))).wrPort rdata (rvalid (2 + c + (LAST + 1))))
      = (if 2 * c < bursts then burstWords (pos (2 * c)) (d.sramAddr.extractLsb' 1 AW
          + BitVec.ofNat AW (takenBefore pos (2 * c))) (rdata 0) else [])
        ++ (if 2 * c + 1 < bursts then burstWords (pos (2 * c + 1))
          (d.sramAddr.extractLsb' 1 AW
            + BitVec.ofNat AW (takenBefore pos (2 * c + 1))) (rdata 1) else []) := by
  obtain ⟨-, hcur⟩ := t.run w hc
  obtain ⟨h0, h1⟩ := t.issue w hc
  have hw := t.wptr_run w hc
  have hpl : (σ (2 + c + (LAST + 1))).pl (Fin.last LAST) = (σ (2 + c)).entry d := by
    rw [← t.pl_delayed (2 + c) (Nat.lt_succ_self LAST)]
    congr 2
    omega
  have hv0 : rvalid (2 + c + (LAST + 1)) 0 = decide (2 * c < bursts) :=
    (hvalid _ 0).trans h0
  have hv1 : rvalid (2 + c + (LAST + 1)) 1 = decide (2 * c + 1 < bursts) :=
    (hvalid _ 1).trans h1
  have he0 : ((σ (2 + c)).entry d).v0 = decide (2 * c < bursts) := h0
  have he1 : ((σ (2 + c)).entry d).v1 = decide (2 * c + 1 < bursts) := h1
  rw [ports_eq hN, hpl, hv0, hv1, he0, he1, Bool.and_self, Bool.and_self]
  by_cases hc0 : 2 * c < bursts
  · rw [Nat.min_eq_left (by omega)] at hcur hw
    have hA := slot_words (pos (2 * c)) (σ (2 + c)).wptr (rdata 0)
    rw [← hcur] at hA
    rw [decide_eq_true hc0, if_pos hc0, ← hw, ← hcur]
    refine congrArg₂ _ hA ?_
    by_cases hc1 : 2 * c + 1 < bursts
    · have hcurB : (σ (2 + c)).burstB d = pos (2 * c + 1) := by
        rw [State.burstB, hcur, w.next _ hc0]
      have hn1 : (σ (2 + c)).n1 d
          = (burstTake ((σ (2 + c)).burstB d)).extractLsb' 1 4 := by
        rw [State.n1, h1, if_pos (decide_eq_true hc1)]
      have hbase : (σ (2 + c)).wptr
          + ((burstTake (σ (2 + c)).cur).extractLsb' 1 4).setWidth AW
          = d.sramAddr.extractLsb' 1 AW
            + BitVec.ofNat AW (takenBefore pos (2 * c + 1)) := by
        rw [hw, hcur, setWidth_words AW (lane_fields (pos (2 * c))).2, BitVec.add_assoc,
          ← BitVec.ofNat_add]
        rfl
      have hB := slot_words (pos (2 * c + 1)) ((σ (2 + c)).wptr
        + ((burstTake (σ (2 + c)).cur).extractLsb' 1 4).setWidth AW) (rdata 1)
      rw [← hcurB, ← hn1, hbase] at hB
      rw [decide_eq_true hc1, if_pos hc1, ← hcurB, ← hB, ← hbase]
      rfl
    · rw [decide_eq_false hc1, if_neg hc1]
      exact List.filterMap_eq_nil_iff.mpr fun _ _ => rfl
  · rw [decide_eq_false hc0, decide_eq_false (show ¬ 2 * c + 1 < bursts by omega),
      if_neg hc0, if_neg (show ¬ 2 * c + 1 < bursts by omega)]
    rfl

/-- **The ports, cycle by cycle**, when every answer is the block asked for. -/
theorem ports_words (t : Transfer d start σ) (h : d.Words) {NBANK : Nat}
    (hN : 16 ≤ NBANK) {rdata : Nat → Fin 2 → BitVec 128}
    {rvalid : Nat → Fin 2 → Bool} (hddr : DdrReturns d rd σ rdata rvalid) {c : Nat}
    (hc : c ≤ lastRun LAST d.bursts) :
    (List.range NBANK).filterMap ((σ (2 + c + (LAST + 1))).wrPort
        (rdata (2 + c + (LAST + 1))) (rvalid (2 + c + (LAST + 1))))
      = tileWords d rd AW (wordsBefore d.toRows (min (2 * c) d.bursts))
        (wordsBefore d.toRows (min (2 * (c + 1)) d.bursts)
          - wordsBefore d.toRows (min (2 * c) d.bursts)) := by
  obtain ⟨-, hcur⟩ := t.run h.fits.walk hc
  obtain ⟨h0, h1⟩ := t.issue h.fits.walk hc
  rw [t.ports_run h.fits.walk hN hddr.valid hc]
  by_cases hc0 : 2 * c < d.bursts
  · rw [Nat.min_eq_left (by omega)] at hcur
    have hA := @burstWords_posAt AW _ rd h _ hc0 (rdata (2 + c + (LAST + 1)) 0)
      fun w hw => by
        rw [hddr.data (2 + c) 0 (h0.trans (decide_eq_true hc0)) w hw, ← hcur]
        rfl
    rw [if_pos hc0, takenBefore_posAt h (by omega), hA, Nat.min_eq_left (by omega)]
    by_cases hc1 : 2 * c + 1 < d.bursts
    · have hcurB : (σ (2 + c)).burstB d = regs d (d.toRows.posAt (2 * c + 1)) := by
        rw [State.burstB, hcur, burstNext_posAt h.fits hc0]
      have hB := @burstWords_posAt AW _ rd h _ hc1 (rdata (2 + c + (LAST + 1)) 1)
        fun w hw => by
          rw [hddr.data (2 + c) 1 (h1.trans (decide_eq_true hc1)) w hw, ← hcurB]
          rfl
      have hlen : wordsBefore d.toRows (2 * (c + 1)) - wordsBefore d.toRows (2 * c)
          = d.toRows.take (d.toRows.posAt (2 * c)) / 2
            + d.toRows.take (d.toRows.posAt (2 * c + 1)) / 2 := by
        rw [wordsBefore_pair]
        omega
      rw [if_pos hc1, takenBefore_posAt h (by omega), hB, Nat.min_eq_left (by omega), hlen,
        tileWords_append]
      rfl
    · have hlen : wordsBefore d.toRows (2 * c + 1) - wordsBefore d.toRows (2 * c)
          = d.toRows.take (d.toRows.posAt (2 * c)) / 2 := by
        show wordsBefore d.toRows (2 * c) + _ - _ = _
        omega
      rw [if_neg hc1, List.append_nil, show min (2 * (c + 1)) d.bursts = 2 * c + 1 by omega,
        hlen]
  · rw [if_neg hc0, if_neg (show ¬ 2 * c + 1 < d.bursts by omega),
      Nat.min_eq_right (by omega), Nat.min_eq_right (by omega), Nat.sub_self]
    rfl

/-- Before the first answer the ports are quiet. -/
theorem ports_before (t : Transfer d start σ) {NBANK : Nat} (hN : 16 ≤ NBANK)
    {rdata : Fin 2 → BitVec 128} {rvalid : Fin 2 → Bool} {c : Nat}
    (hc : c < 2 + (LAST + 1)) :
    (List.range NBANK).filterMap ((σ c).wrPort rdata rvalid) = [] := by
  have hidle : ((σ c).pl (Fin.last LAST)).v0 = false
      ∧ ((σ c).pl (Fin.last LAST)).v1 = false := by
    by_cases hL : c ≤ LAST
    · exact t.pl_initial hL (Nat.lt_succ_self LAST)
    · obtain ⟨c', hc'⟩ : ∃ c', c = c' + 1 + LAST := ⟨c - 1 - LAST, by omega⟩
      have h0 := t.issue_before (show c' < 2 by omega)
      have hpl := t.pl_delayed c' (Nat.lt_succ_self LAST)
      rw [hc', show (σ (c' + 1 + LAST)).pl (Fin.last LAST) = _ from hpl]
      exact ⟨h0, issueV1_of_issueV0 h0⟩
  rw [ports_eq hN, hidle.1, hidle.2]
  rfl

end Transfer

end Cycle

end EclipseNpu.Rtl

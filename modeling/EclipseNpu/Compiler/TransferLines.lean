import EclipseNpu.Compiler.Classification
import EclipseNpu.Compiler.Verify
import EclipseNpu.Tools.HazardSegments

/-!
# Compiler — TransferLines

Which bytes the lines of the loads and stores touch, as the hazard checker counts
them. With the buffers of a layout apart from each other, a line reads inside one
buffer and writes inside another (`Moves`), so two lines conflict only over a
buffer they share; a store and a load of the first rows of what it stored do
(`store_conflicts_load`).
-/

namespace EclipseNpu.Compiler

open EclipseNpu.Lib EclipseNpu.Runtime EclipseNpu.Tools

/-! ## Buffers -/

def Binding.addr : Binding → UInt32
  | sram addr | ddr addr => addr

/-- The end of a bound buffer, as an unbounded integer. -/
def bufferEnd (b : Value × Binding) : Nat :=
  b.2.addr.toNat + b.1.type.sizeInBytes

/-- **The buffers are pairwise disjoint** ranges of 32-bit addresses. -/
structure Layout.Separate (layout : Layout) : Prop where
  inside : ∀ b ∈ layout, bufferEnd b ≤ 4294967296
  apart : layout.Pairwise fun b c =>
    bufferEnd b ≤ c.2.addr.toNat ∨ bufferEnd c ≤ b.2.addr.toNat

instance (layout : Layout) : Decidable layout.Separate :=
  decidable_of_iff ((∀ b ∈ layout, bufferEnd b ≤ 4294967296)
      ∧ layout.Pairwise fun b c =>
        bufferEnd b ≤ c.2.addr.toNat ∨ bufferEnd c ≤ b.2.addr.toNat)
    ⟨fun h => ⟨h.1, h.2⟩, fun h => ⟨h.inside, h.apart⟩⟩

/-- Buffer `v` starts at `base`. -/
def Layout.At (layout : Layout) (v : Value) (base : Nat) : Prop :=
  ∃ b, (v, b) ∈ layout ∧ b.addr.toNat = base

section Buffers

variable {layout : Layout} {v w : Value} {addr : UInt32} {base base' : Nat}

theorem at_of_sramAddr (h : layout.sramAddr? v = some addr) :
    layout.At v addr.toNat := by
  unfold Layout.sramAddr? at h
  split at h
  · rename_i hfind
    cases h
    exact ⟨_, mem_of_find hfind, rfl⟩
  · cases h

theorem at_of_ddrBaseAddr (h : ddrBaseAddr layout v = some addr) :
    layout.At v addr.toNat := by
  unfold ddrBaseAddr at h
  split at h
  · rename_i hfind
    cases h
    exact ⟨_, mem_of_find hfind, rfl⟩
  · cases h

theorem Layout.Separate.end_le (h : layout.Separate) (hv : layout.At v base) :
    base + v.type.sizeInBytes ≤ 4294967296 := by
  obtain ⟨b, hb, rfl⟩ := hv
  exact h.inside _ hb

/-- Two buffers share no byte. -/
theorem Layout.Separate.disjoint (h : layout.Separate) (hv : layout.At v base)
    (hw : layout.At w base') (hne : v ≠ w) :
    base + v.type.sizeInBytes ≤ base' ∨ base' + w.type.sizeInBytes ≤ base := by
  obtain ⟨b, hb, rfl⟩ := hv
  obtain ⟨c, hc, rfl⟩ := hw
  obtain ⟨i, hi, hib⟩ := List.mem_iff_getElem.mp hb
  obtain ⟨j, hj, hjc⟩ := List.mem_iff_getElem.mp hc
  have hpair := List.pairwise_iff_getElem.mp h.apart
  rcases Nat.lt_trichotomy i j with hij | hij | hij
  · have := hpair i j hi hj hij
    rw [hib, hjc] at this
    exact this
  · subst hij
    rw [hib] at hjc
    cases hjc
    exact absurd rfl hne
  · have := hpair j i hj hi hij
    rw [hib, hjc] at this
    exact this.symm

end Buffers

/-! ## Intervals -/

/-- The intervals lie in the `size` bytes from `base`. -/
def Within (rs : Ranges) (base size : Nat) : Prop :=
  ∀ r ∈ rs, base ≤ r.1 ∧ r.2 ≤ base + size

theorem Within.apart {as bs : Ranges} {a b m n : Nat} (ha : Within as a m)
    (hb : Within bs b n) (h : a + m ≤ b ∨ b + n ≤ a) : rangesOverlap as bs = false := by
  rw [Bool.eq_false_iff]
  intro ho
  simp only [rangesOverlap, List.any_eq_true, Bool.and_eq_true, decide_eq_true_eq] at ho
  obtain ⟨r, hr, q, hq, hlt, hlt'⟩ := ho
  have := ha r hr
  have := hb q hq
  omega

/-- Rows of a packed matrix that begin `off` bytes into a buffer. -/
theorem tileRanges_within {base start rows cols stride size : Nat}
    (h : 0 < rows → base ≤ start ∧ start + (rows - 1) * stride + cols * 2 ≤ base + size) :
    Within (tileRanges start rows cols stride) base size := by
  intro r hr
  obtain ⟨i, hi, rfl⟩ := List.mem_map.mp hr
  rw [List.mem_range] at hi
  obtain ⟨hlo, hhi⟩ := h (by omega)
  have hrow : i * stride ≤ (rows - 1) * stride := Nat.mul_le_mul_right _ (by omega)
  dsimp only
  omega

/-- Two matrices that begin with the same bytes. -/
theorem tileRanges_overlap {base rows cols stride rows' cols' stride' : Nat}
    (hr : 0 < rows) (hc : 0 < cols) (hr' : 0 < rows') (hc' : 0 < cols') :
    rangesOverlap (tileRanges base rows cols stride)
      (tileRanges base rows' cols' stride') = true := by
  simp only [rangesOverlap, List.any_eq_true, Bool.and_eq_true, decide_eq_true_eq]
  refine ⟨_, List.mem_map.mpr ⟨0, List.mem_range.mpr hr, rfl⟩, _,
    List.mem_map.mpr ⟨0, List.mem_range.mpr hr', rfl⟩, ?_, ?_⟩
  · simp only [Nat.zero_mul]
    omega
  · simp only [Nat.zero_mul]
    omega

theorem toNat_ofNat_le (n : Nat) : (UInt32.ofNat n).toNat ≤ n := by
  rw [UInt32.toNat_ofNat']
  exact Nat.mod_le _ _

/-! ## Lines that move data -/

/-- A line that reads inside buffer `v` and writes inside buffer `w`. -/
structure Moves (layout : Layout) (v w : Value) (x : EasmInsn) : Prop where
  noSync : x.isSync = false
  reads : ∃ base, layout.At v base
    ∧ ∀ r ∈ (parseInstruction x).reads, Within r.2 base v.type.sizeInBytes
  writes : ∃ base, layout.At w base
    ∧ ∀ r ∈ (parseInstruction x).writes, Within r.2 base w.type.sizeInBytes

section Moves

variable {layout : Layout} {v w v' w' : Value} {x y : EasmInsn}

/-- Two lines with no buffer in common but what both read do not conflict. -/
theorem Moves.noConflict (hs : layout.Separate) (hx : Moves layout v w x)
    (hy : Moves layout v' w' y) (hraw : w ≠ v' ∨ v'.type.sizeInBytes = 0) (hwar : v ≠ w')
    (hwaw : w ≠ w') : HazardFree x y := by
  obtain ⟨-, ⟨rx, hrx, hreadx⟩, wx, hwx, hwritex⟩ := hx
  obtain ⟨-, ⟨ry, hry, hready⟩, wy, hwy, hwritey⟩ := hy
  refine ⟨fun p hp r hr => ?_, fun r hr p hp => ?_, fun p hp q hq => ?_⟩
  · by_cases hne : w = v'
    · subst hne
      -- the intervals of an empty buffer are empty
      have hzero := hraw.resolve_left fun h => h rfl
      refine (hready r hr).apart (hwritex p hp) ?_
      rw [hzero]
      exact Nat.le_total ry wx
    · exact (hready r hr).apart (hwritex p hp) (hs.disjoint hry hwx (Ne.symm hne))
  · exact (hwritey p hp).apart (hreadx r hr) (hs.disjoint hwy hrx hwar.symm)
  · exact (hwritey q hq).apart (hwritex p hp) (hs.disjoint hwy hwx hwaw.symm)

end Moves

/-! ## Loads and stores -/

/-- A load of a part of the buffer `x` that fills the tile `t`: all of it, or a
block of rows and columns. -/
inductive LoadOf (x t : Value) : Op → Prop
  | whole {id : OpId} {rows cols : Nat} (hx : F16Shape x rows cols)
      (ht : F16Shape t rows cols) : LoadOf x t (.dmaLoad (toDDR id x) t)
  | block {id id' : OpId} {rows cols r c m n : Nat} (hx : F16Shape x rows cols)
      (ht : F16Shape t m n) (hr : r + m ≤ rows) (hc : c + n ≤ cols) (hn : c = 0 ∨ 0 < n) :
      LoadOf x t (.dmaLoad (.subView id (toDDR id' x) [.const r, .const c] [m, n] [1, 1]) t)

section Lines

variable {layout : Layout} {x t w : Value} {d addr sram : UInt32} {rows cols m n r c : Nat}

theorem wholeTransfer_within :
    Within (tileRanges addr.toNat (UInt32.ofNat rows).toNat (UInt32.ofNat cols).toNat
      (UInt32.ofNat (cols * 2)).toNat) addr.toNat (rows * cols * 2) := by
  refine tileRanges_within fun hrows => ⟨Nat.le_refl _, ?_⟩
  have hr := toNat_ofNat_le rows
  have hc := toNat_ofNat_le cols
  have hs := toNat_ofNat_le (cols * 2)
  have hmul : ((UInt32.ofNat rows).toNat - 1) * (UInt32.ofNat (cols * 2)).toNat
      ≤ (rows - 1) * (cols * 2) := Nat.mul_le_mul (by omega) hs
  obtain ⟨k, rfl⟩ : ∃ k, rows = k + 1 := ⟨rows - 1, by omega⟩
  have hsize : (k + 1) * cols * 2 = k * (cols * 2) + cols * 2 := by ring
  rw [Nat.add_sub_cancel] at hmul
  omega

/-- The address of a block does not wrap. -/
theorem blockAddr_toNat (h : addr.toNat + r * (cols * 2) + c * 2 < 4294967296) :
    (addr + UInt32.ofNat r * UInt32.ofNat (cols * 2)
      + UInt32.ofNat c * UInt32.ofNat (1 * 2)).toNat
      = addr.toNat + r * (cols * 2) + c * 2 := by
  rw [← UInt32.ofNat_mul, ← UInt32.ofNat_mul, UInt32.toNat_add, UInt32.toNat_add,
    UInt32.toNat_ofNat', UInt32.toNat_ofNat']
  generalize r * (cols * 2) = k at h ⊢
  omega

theorem blockTransfer_within (hr : r + m ≤ rows) (hc : c + n ≤ cols) (hn : c = 0 ∨ 0 < n)
    (hend : addr.toNat + rows * cols * 2 ≤ 4294967296) :
    Within (tileRanges (subviewTransfer sram addr cols r c m n 1).ddrAddr.toNat
      (UInt32.ofNat m).toNat (UInt32.ofNat n).toNat (UInt32.ofNat (cols * 2)).toNat)
      addr.toNat (rows * cols * 2) := by
  refine tileRanges_within fun hrows => ?_
  have hm := toNat_ofNat_le m
  have hle := toNat_ofNat_le n
  have hs := toNat_ofNat_le (cols * 2)
  have hlt := addr.toNat_lt
  have hmul : ((UInt32.ofNat m).toNat - 1) * (UInt32.ofNat (cols * 2)).toNat
      ≤ (m - 1) * (cols * 2) := Nat.mul_le_mul (by omega) hs
  -- the last row of the block is a row of the buffer
  have hlast : r * (cols * 2) + (m - 1) * (cols * 2) + cols * 2 ≤ rows * cols * 2 := by
    have hsum : (r + (m - 1) + 1) * (cols * 2) ≤ rows * (cols * 2) :=
      Nat.mul_le_mul_right _ (by omega)
    have hsize : rows * cols * 2 = rows * (cols * 2) := Nat.mul_assoc _ _ _
    rwa [hsize, ← Nat.add_mul, ← Nat.succ_mul]
  have hstart : (subviewTransfer sram addr cols r c m n 1).ddrAddr.toNat
      = addr.toNat + r * (cols * 2) + c * 2 := by
    refine blockAddr_toNat ?_
    by_cases hzero : cols = 0
    · subst hzero
      simp only [Nat.zero_mul, Nat.mul_zero]
      omega
    · omega
  rw [hstart]
  omega

/-! ### Emission -/

/-- **A load** writes one line, from its buffer into its tile, or none. -/
theorem LoadOf.emit {op : Op} {e : Emitted} (hs : layout.Separate) (h : LoadOf x t op)
    (he : emitOp layout d op = some e) :
    e.1 = [] ∨ ∃ y, e.1 = [y] ∧ Moves layout x t y := by
  cases h with
  | @whole id rows cols hx ht =>
      obtain ⟨sram, hsram, he⟩ := Option.bind_eq_some_iff.mp he
      dsimp only [toDDR] at he
      split_ifs at he with hbound
      · cases he
        exact .inl rfl
      · obtain ⟨addr, haddr, he⟩ := Option.bind_eq_some_iff.mp he
        obtain ⟨r, hr, he⟩ := Option.bind_eq_some_iff.mp he
        obtain ⟨c, hc, he⟩ := Option.bind_eq_some_iff.mp he
        simp only [MemRefType.dim?, hx.shape] at hr hc
        cases hr
        cases hc
        cases he
        refine .inr ⟨_, rfl, rfl, ⟨_, at_of_ddrBaseAddr haddr, ?_⟩,
          ⟨_, at_of_sramAddr hsram, ?_⟩⟩
        · intro p hp
          rw [List.mem_singleton.mp hp, hx.size]
          exact wholeTransfer_within
        · intro p hp
          rw [List.mem_singleton.mp hp, ht.size]
          exact wholeTransfer_within
  | @block id id' rows cols r c m n hx ht hr hc hn =>
      obtain ⟨sram, hsram, he⟩ := Option.bind_eq_some_iff.mp he
      dsimp only [toDDR] at he
      split_ifs at he with hbound
      · cases he
        exact .inl rfl
      · obtain ⟨addr, haddr, he⟩ := Option.bind_eq_some_iff.mp he
        simp only [List.getElem?_cons_zero, List.getElem?_cons_succ, Option.bind_some,
          IndexValue.getV, Option.bind_eq_bind] at he
        obtain ⟨k, hk, he⟩ := Option.bind_eq_some_iff.mp he
        simp only [MemRefType.dim?, hx.shape] at hk
        cases hk
        cases he
        have hat := at_of_ddrBaseAddr haddr
        have hend := hs.end_le hat
        rw [hx.size] at hend
        refine .inr ⟨_, rfl, rfl, ⟨_, hat, ?_⟩, ⟨_, at_of_sramAddr hsram, ?_⟩⟩
        · intro p hp
          rw [List.mem_singleton.mp hp, hx.size]
          exact blockTransfer_within hr hc hn hend
        · intro p hp
          rw [List.mem_singleton.mp hp, ht.size]
          exact wholeTransfer_within

/-- **A store** writes one line, from its tile into its buffer. -/
theorem emit_store {id : OpId} {e : Emitted} (hx : F16Shape x rows cols)
    (ht : F16Shape t rows cols)
    (he : emitOp layout d (.dmaStore t (toDDR id x)) = some e) :
    ∃ y, e.1 = [y] ∧ Moves layout t x y := by
  obtain ⟨-, -, he⟩ := Option.bind_eq_some_iff.mp he
  obtain ⟨addr, haddr, he⟩ := Option.bind_eq_some_iff.mp he
  obtain ⟨sram, hsram, he⟩ := Option.bind_eq_some_iff.mp he
  obtain ⟨r, hr, he⟩ := Option.bind_eq_some_iff.mp he
  obtain ⟨c, hc, he⟩ := Option.bind_eq_some_iff.mp he
  simp only [MemRefType.dim?, hx.shape] at hr hc
  cases hr
  cases hc
  cases he
  refine ⟨_, rfl, rfl, ⟨_, at_of_sramAddr hsram, ?_⟩, ⟨_, at_of_ddrBaseAddr haddr, ?_⟩⟩
  · intro p hp
    rw [List.mem_singleton.mp hp, ht.size]
    exact wholeTransfer_within
  · intro p hp
    rw [List.mem_singleton.mp hp, hx.size]
    exact wholeTransfer_within

/-- **A store and a load of the first rows** of the same buffer conflict, when
there is something to transfer. -/
theorem store_conflicts_load {id id' id'' : OpId} {d' : UInt32} {e e' : Emitted}
    (hs : layout.Separate) (hx : F16Shape x rows cols) (hrows : 0 < rows) (hcols : 0 < cols)
    (hm : 0 < m) (hmr : m ≤ rows) (hn : 0 < n) (hnc : n ≤ cols)
    (he : emitOp layout d (.dmaStore t (toDDR id x)) = some e)
    (he' : emitOp layout d' (.dmaLoad (.subView id' (toDDR id'' x) [.const 0, .const 0] [m, n]
      [1, 1]) w) = some e') :
    ∃ y y', e.1 = [y] ∧ e'.1 = [y'] ∧ ¬ HazardFree y y' := by
  obtain ⟨_, halloc, he⟩ := Option.bind_eq_some_iff.mp he
  obtain ⟨addr, haddr, he⟩ := Option.bind_eq_some_iff.mp he
  obtain ⟨sram, hsram, he⟩ := Option.bind_eq_some_iff.mp he
  obtain ⟨r, hr, he⟩ := Option.bind_eq_some_iff.mp he
  obtain ⟨c, hc, he⟩ := Option.bind_eq_some_iff.mp he
  simp only [MemRefType.dim?, hx.shape] at hr hc
  cases hr
  cases hc
  cases he
  obtain ⟨sram', hsram', he'⟩ := Option.bind_eq_some_iff.mp he'
  dsimp only [toDDR] at he'
  have hbound : layout.isAllocOp x = true := (Option.guard_eq_some' _).mp halloc
  rw [hbound, Bool.not_true, Bool.and_false, if_neg Bool.false_ne_true, haddr] at he'
  simp only [List.getElem?_cons_zero, List.getElem?_cons_succ, Option.bind_some,
    IndexValue.getV, Option.bind_eq_bind] at he'
  obtain ⟨k, hk, he'⟩ := Option.bind_eq_some_iff.mp he'
  simp only [MemRefType.dim?, hx.shape] at hk
  cases hk
  cases he'
  refine ⟨_, _, rfl, rfl, fun hind => ?_⟩
  have hend := hs.end_le (at_of_ddrBaseAddr haddr)
  rw [hx.size] at hend
  have hstart : (subviewTransfer sram' addr cols 0 0 m n 1).ddrAddr.toNat = addr.toNat := by
    have hlt := addr.toNat_lt
    refine (blockAddr_toNat ?_).trans ?_ <;> omega
  have hle : rows ≤ rows * cols := Nat.le_mul_of_pos_right _ hcols
  have hle' : cols ≤ rows * cols := Nat.le_mul_of_pos_left _ hrows
  have hover : rangesOverlap
      (tileRanges (subviewTransfer sram' addr cols 0 0 m n 1).ddrAddr.toNat
        (UInt32.ofNat m).toNat (UInt32.ofNat n).toNat (UInt32.ofNat (cols * 2)).toNat)
      (tileRanges addr.toNat (UInt32.ofNat rows).toNat (UInt32.ofNat cols).toNat
        (UInt32.ofNat (cols * 2)).toNat) = true := by
    rw [hstart]
    refine tileRanges_overlap ?_ ?_ ?_ ?_
    · rw [toNat_ofNat_small (by omega)]
      exact hm
    · rw [toNat_ofNat_small (by omega)]
      exact hn
    · rw [toNat_ofNat_small (by omega)]
      exact hrows
    · rw [toNat_ofNat_small (by omega)]
      exact hcols
  have hno := hind.raw _ (List.mem_singleton_self _) _ (List.mem_singleton_self _)
  dsimp only [wholeTransfer] at hno
  exact Bool.false_ne_true (hno.symm.trans hover)

end Lines

end EclipseNpu.Compiler

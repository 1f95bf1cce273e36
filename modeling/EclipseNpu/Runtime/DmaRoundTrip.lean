import EclipseNpu.Lib.StridedCopy
import EclipseNpu.Runtime.Stream

/-!
# Runtime — DmaRoundTrip

A tile loaded into SRAM and stored back: `execDmaLoad` packs the rows of a
pitched DDR tile, `execDmaStore` spreads them out again with a pitch of its own.
Together they move the tile and nothing else (`dma_roundTrip`), also when the two
DDR tiles overlap, for the whole tile is in SRAM before its first row is
written back.
-/

namespace EclipseNpu.Runtime

open EclipseNpu.Lib

/-- `n` bytes at `addr` inside `[lo, hi)`; of an empty row, its address. -/
def RowIn (lo hi addr n : Nat) : Prop := lo ≤ addr ∧ addr < hi ∧ (n = 0 ∨ addr + n ≤ hi)

instance (lo hi addr n : Nat) : Decidable (RowIn lo hi addr n) :=
  inferInstanceAs (Decidable (_ ∧ _ ∧ _))

/-- The bytes of a tile. -/
def TileByte (base pitch rows width x : Nat) : Prop :=
  ∃ i < rows, ∃ j < width, x = base + i * pitch + j

/-! ## One DMA -/

theorem copyToSram_copiedRow (s : CModel) (dst src w : Nat) :
    CopiedRow Loc.sram Loc.ddr s (s.copyToSram dst src w) dst src w := by
  constructor
  · intro j hj
    exact copyToSram_in hj
  · intro l hl
    cases l with
    | ddr a => rfl
    | sram a =>
        apply copyToSram_out
        by_contra hin
        refine hl (a - dst) (by omega) (congrArg Loc.sram ?_)
        omega

theorem copyToDdr_copiedRow (s : CModel) (dst src w : Nat) :
    CopiedRow Loc.ddr Loc.sram s (s.copyToDdr dst src w) dst src w := by
  constructor
  · intro j hj
    exact copyToDdr_in hj
  · intro l hl
    cases l with
    | sram a => rfl
    | ddr a =>
        apply copyToDdr_out
        by_contra hin
        refine hl (a - dst) (by omega) (congrArg Loc.ddr ?_)
        omega

theorem sram_injective : Function.Injective Loc.sram := fun _ _ h => Loc.sram.inj h

theorem ddr_injective : Function.Injective Loc.ddr := fun _ _ h => Loc.ddr.inj h

/-- The address of a row in range. -/
theorem toNat_rowIn {base stride : UInt32} {rows : UInt32} {i lo hi n : Nat}
    (hi' : i < rows.toNat) (hend : hi ≤ 4294967296)
    (h : RowIn lo hi (base.toNat + i * stride.toNat) n) :
    (base + stride * UInt32.ofNat i).toNat = base.toNat + i * stride.toNat := by
  have hrows := rows.toNat_lt
  obtain ⟨-, hlt, -⟩ := h
  exact toNat_row (toNat_ofNat_small (by omega)) (by omega)

section Tile

variable {desc : DMAParam} {s : CModel}

/-- **DMA_LOAD copies a tile**: from DDR rows `srcStride` apart to SRAM rows
`dstStride` apart. -/
theorem dmaLoad_tile (halign : (desc.sramAddr % 16 == 0 && desc.ddrAddr % 16 == 0) = true)
    (hpitch : desc.cols.toNat * 2 ≤ desc.dstStride.toNat)
    (hsrc : ∀ i < desc.rows.toNat, RowIn 0x40000000 ddrEnd
      (desc.ddrAddr.toNat + i * desc.srcStride.toNat) (desc.cols.toNat * 2))
    (hdst : ∀ i < desc.rows.toNat, RowIn 0x10000000 sramEnd
      (desc.sramAddr.toNat + i * desc.dstStride.toNat) (desc.cols.toNat * 2)) :
    ∃ s', dmaLoad desc s = .ok s'
      ∧ CopiedTile Loc.sram Loc.ddr s s' desc.sramAddr.toNat desc.dstStride.toNat
        desc.ddrAddr.toNat desc.srcStride.toNat desc.rows.toNat (desc.cols.toNat * 2) := by
  rw [dmaLoad, halign, assert_true, ok_bind]
  refine forLoop_copiedTile sram_injective (fun _ _ => Loc.noConfusion) hpitch ?_
  intro i hi t
  have hs : (desc.loadSrc i).toNat = _ := toNat_rowIn hi (by decide) (hsrc i hi)
  have hd : (desc.loadDst i).toNat = _ := toNat_rowIn hi (by decide) (hdst i hi)
  have hrow := copyToSram_copiedRow t (desc.loadDst i).toNat (desc.loadSrc i).toNat
    (desc.cols.toNat * 2)
  refine ⟨_, dmaLoadRow_ok_iff.mpr ⟨⟨?_, ?_⟩, rfl⟩, ?_⟩
  · rw [DdrRow, hs]
    exact hsrc i hi
  · rw [SramRow, hd]
    exact hdst i hi
  · rw [hs, hd] at hrow
    rw [hs, hd]
    exact hrow

/-- **DMA_STORE copies a tile** the other way. -/
theorem dmaStore_tile (halign : (desc.sramAddr % 16 == 0 && desc.ddrAddr % 16 == 0) = true)
    (hpitch : desc.cols.toNat * 2 ≤ desc.dstStride.toNat)
    (hsrc : ∀ i < desc.rows.toNat, RowIn 0x10000000 sramEnd
      (desc.sramAddr.toNat + i * desc.srcStride.toNat) (desc.cols.toNat * 2))
    (hdst : ∀ i < desc.rows.toNat, RowIn 0x40000000 ddrEnd
      (desc.ddrAddr.toNat + i * desc.dstStride.toNat) (desc.cols.toNat * 2)) :
    ∃ s', dmaStore desc s = .ok s'
      ∧ CopiedTile Loc.ddr Loc.sram s s' desc.ddrAddr.toNat desc.dstStride.toNat
        desc.sramAddr.toNat desc.srcStride.toNat desc.rows.toNat (desc.cols.toNat * 2) := by
  rw [dmaStore, halign, assert_true, ok_bind]
  refine forLoop_copiedTile ddr_injective (fun _ _ => Loc.noConfusion) hpitch ?_
  intro i hi t
  have hs : (desc.storeSrc i).toNat = _ := toNat_rowIn hi (by decide) (hsrc i hi)
  have hd : (desc.storeDst i).toNat = _ := toNat_rowIn hi (by decide) (hdst i hi)
  have hrow := copyToDdr_copiedRow t (desc.storeDst i).toNat (desc.storeSrc i).toNat
    (desc.cols.toNat * 2)
  refine ⟨_, dmaStoreRow_ok_iff.mpr ⟨⟨?_, ?_⟩, rfl⟩, ?_⟩
  · rw [SramRow, hs]
    exact hsrc i hi
  · rw [DdrRow, hd]
    exact hdst i hi
  · rw [hs, hd] at hrow
    rw [hs, hd]
    exact hrow

end Tile

/-! ## The round trip -/

/-- `DMA_LOAD(sram s, ddr a, srcStride p, dstStride 2 * cols)`. -/
def tileLoad (rows cols s a p : UInt32) : DMAParam :=
  { sramAddr := s, ddrAddr := a, rows := rows, cols := cols, srcStride := p
    dstStride := cols * 2 }

/-- `DMA_STORE(sram s, ddr b, srcStride 2 * cols, dstStride q)`. -/
def tileStore (rows cols s b q : UInt32) : DMAParam :=
  { sramAddr := s, ddrAddr := b, rows := rows, cols := cols, srcStride := cols * 2
    dstStride := q }

/-- The 24 bytes of a DMA descriptor. -/
def InDesc (d : UInt32) (x : Nat) : Prop := d.toNat ≤ x ∧ x < d.toNat + 24

/-- Aligned addresses, pitches that hold a row, all rows in range, and the
destination off the two descriptors. -/
structure RoundTrip (rows cols s a p b q ld st : UInt32) : Prop where
  aligned : s % 16 = 0 ∧ a % 16 = 0 ∧ b % 16 = 0
  srcPitch : 2 * cols.toNat ≤ p.toNat
  dstPitch : 2 * cols.toNat ≤ q.toNat
  source : ∀ i < rows.toNat,
    RowIn 0x40000000 ddrEnd (a.toNat + i * p.toNat) (2 * cols.toNat)
  tile : ∀ i < rows.toNat,
    RowIn 0x10000000 sramEnd (s.toNat + i * (2 * cols.toNat)) (2 * cols.toNat)
  target : ∀ i < rows.toNat,
    RowIn 0x40000000 ddrEnd (b.toNat + i * q.toNat) (2 * cols.toNat)
  loadDesc : 0x40000000 ≤ ld.toNat ∧ ld.toNat + 24 ≤ ddrEnd
  storeDesc : 0x40000000 ≤ st.toNat ∧ st.toNat + 24 ≤ ddrEnd
  apart : ∀ x, TileByte b.toNat q.toNat rows.toNat (2 * cols.toNat) x →
    ¬ InDesc ld x ∧ ¬ InDesc st x

section RoundTrip

variable {rows cols s a p b q ld st : UInt32}

theorem RoundTrip.toNat_packed (h : RoundTrip rows cols s a p b q ld st) :
    (cols * 2).toNat = 2 * cols.toNat := by
  have hp := p.toNat_lt
  have hpitch := h.srcPitch
  rw [UInt32.toNat_mul, show (2 : UInt32).toNat = 2 from rfl, Nat.mod_eq_of_lt (by omega),
    Nat.mul_comm]

/-- **A packed round trip moves the tile and nothing else.** -/
theorem dma_roundTrip {F : Type} [Fp32 F] (h : RoundTrip rows cols s a p b q ld st)
    {m : CModel} (hload : OwnDesc (.dmaLoad ld (tileLoad rows cols s a p)) m)
    (hstore : OwnDesc (.dmaStore st (tileStore rows cols s b q)) m) :
    ∃ m', (exec F ⟨.DMA_LOAD, ld⟩ m >>= exec F ⟨.DMA_STORE, st⟩) = .ok m'
      ∧ (∀ i < rows.toNat, ∀ j < 2 * cols.toNat,
        m' (.ddr (b.toNat + i * q.toNat + j)) = m (.ddr (a.toNat + i * p.toNat + j)))
      ∧ (∀ x, ¬ TileByte b.toNat q.toNat rows.toNat (2 * cols.toNat) x →
        m' (.ddr x) = m (.ddr x))
      ∧ ∀ x, (x < s.toNat ∨ s.toNat + rows.toNat * (2 * cols.toNat) ≤ x) →
        m' (.sram x) = m (.sram x) := by
  obtain ⟨hs, ha, hb⟩ := h.aligned
  have hpacked := h.toNat_packed
  have hwidth := Nat.mul_comm cols.toNat 2
  -- the load executes its own fields, and keeps DDR
  have hslotLoad : SlotInDdr (.dmaLoad ld (tileLoad rows cols s a p)) := fun _ => h.loadDesc
  have hexecLoad : exec F ⟨.DMA_LOAD, ld⟩ m = dmaLoad (tileLoad rows cols s a p) m :=
    exec_toInstruction hslotLoad hload (.of_notStore nofun)
  obtain ⟨t, ht, hin⟩ := @dmaLoad_tile (tileLoad rows cols s a p) m (by simp [tileLoad, hs, ha])
    (by simp only [tileLoad, hpacked, hwidth, Nat.le_refl])
    (by simp only [tileLoad, hwidth]; exact h.source)
    (by simp only [tileLoad, hpacked, hwidth]; exact h.tile)
  simp only [tileLoad, hpacked, hwidth] at hin
  have hddr : ∀ x, t (.ddr x) = m (.ddr x) := fun x => hin.frame _ fun _ _ _ _ => nofun
  -- the store keeps its descriptor, and SRAM
  have hown : OwnDesc (.dmaStore st (tileStore rows cols s b q)) t :=
    hstore.congr fun x _ => hddr x
  have havoid : StoreAvoids (.dmaStore st (tileStore rows cols s b q))
      (.dmaStore st (tileStore rows cols s b q)) := by
    rintro x ⟨i, hi, j, hj, hx⟩ hslot
    have hrow : ((tileStore rows cols s b q).storeDst i).toNat = _ :=
      toNat_rowIn hi (by decide) (h.target i hi)
    rw [hrow] at hx
    have hj' : j < 2 * cols.toNat := by
      rw [← hwidth]
      exact hj
    exact (h.apart x ⟨i, hi, j, hj', Loc.ddr.inj hx⟩).2 hslot
  have hslotStore : SlotInDdr (.dmaStore st (tileStore rows cols s b q)) := fun _ => h.storeDesc
  have hexecStore : exec F ⟨.DMA_STORE, st⟩ t = dmaStore (tileStore rows cols s b q) t :=
    exec_toInstruction hslotStore hown havoid
  obtain ⟨u, hu, hout⟩ := @dmaStore_tile (tileStore rows cols s b q) t
    (by simp [tileStore, hs, hb])
    (by simp only [tileStore, hwidth]; exact h.dstPitch)
    (by simp only [tileStore, hpacked, hwidth]; exact h.tile)
    (by simp only [tileStore, hwidth]; exact h.target)
  simp only [tileStore, hpacked, hwidth] at hout
  refine ⟨u, ?_, hin.roundTrip hout, ?_, ?_⟩
  · rw [hexecLoad, ht, ok_bind, hexecStore, hu]
  · intro x hx
    rw [hout.frame, hddr x]
    intro i hi j hj heq
    exact hx ⟨i, hi, j, hj, Loc.ddr.inj heq⟩
  · intro x hx
    have hkept : u (.sram x) = t (.sram x) := hout.frame _ fun _ _ _ _ => nofun
    rw [hkept, hin.frame]
    intro i hi j hj heq
    have haddr := Loc.sram.inj heq
    have hend := row_le_row (Nat.le_refl (2 * cols.toNat)) hi
    omega

/-- Three rows of 8 elements, each written where the next one was read. -/
def shiftedTile : CModel :=
  CModel.storeDdr (withDesc (.dmaLoad 0x40000000 (tileLoad 3 8 0x10000000 0x40010000 16)))
    0x40000020 (tileStore 3 8 0x10000000 0x40010010 16).bytes

theorem roundTrip_shifted : RoundTrip 3 8 0x10000000 0x40010000 16 0x40010010 16
    0x40000000 0x40000020 := by
  refine ⟨by decide, by decide, by decide, by decide, by decide, by decide, by decide,
    by decide, ?_⟩
  rintro x ⟨i, -, j, -, rfl⟩
  have hb : (0x40010010 : UInt32).toNat = 0x40010010 := rfl
  have hld : (0x40000000 : UInt32).toNat = 0x40000000 := rfl
  have hst : (0x40000020 : UInt32).toNat = 0x40000020 := rfl
  unfold InDesc
  omega

/-- The second row is read before it is overwritten. -/
theorem dma_roundTrip_shifted :
    ∃ m', (@exec Int Fp32.integers ⟨.DMA_LOAD, 0x40000000⟩ shiftedTile
        >>= @exec Int Fp32.integers ⟨.DMA_STORE, 0x40000020⟩) = .ok m'
      ∧ m' (.ddr 0x40010020) = shiftedTile (.ddr 0x40010010) := by
  have hload : OwnDesc (.dmaLoad 0x40000000 (tileLoad 3 8 0x10000000 0x40010000 16))
      shiftedTile := by
    refine (ownDesc_withDesc _).congr fun x hx => storeDdr_out (.inl ?_)
    have : x < 0x40000000 + 24 := hx.2
    change x < 0x40000020
    omega
  have hstore : OwnDesc (.dmaStore 0x40000020 (tileStore 3 8 0x10000000 0x40010010 16))
      shiftedTile := storeDdr_holds _ _ _
  obtain ⟨m', hm, htile, -, -⟩ :=
    @dma_roundTrip _ _ _ _ _ _ _ _ _ Int Fp32.integers roundTrip_shifted _ hload hstore
  exact ⟨m', hm, htile 1 (by decide) 0 (by decide)⟩

end RoundTrip

end EclipseNpu.Runtime

import EclipseNpu.Rtl.DmaTiming
import EclipseNpu.Rtl.DmaWrites
import EclipseNpu.Runtime.DmaWords

/-!
# Rtl — DmaRefines

The engine writes what `execDmaLoad` writes. The invariant of the run is on
the SRAM: after the answers of the first `c` cycles of `S_RUN` it is the
initial memory with the words of the first `2 * c` bursts written in tile
order (`memory_run`). Inside a cycle the ports name different words, so
their order does not matter.
-/

namespace EclipseNpu.Rtl

open EclipseNpu.Lib EclipseNpu.Runtime

variable {AW LAST : Nat}

/-- A word write of the simulator on a memory of `2 ^ AW` words. -/
def portWord (AW : Nat) (w : Nat × UInt16) : BitVec AW × BitVec 16 :=
  (BitVec.ofNat AW w.1, w.2.toBitVec)

/-- The SRAM behind the ports: the asserted writes of a cycle are served in
some order. -/
def SramTrace (NBANK : Nat) (σ : Nat → State AW LAST)
    (rdata : Nat → Fin 2 → BitVec 128) (rvalid : Nat → Fin 2 → Bool)
    (μ : Nat → BitVec AW → BitVec 16) : Prop :=
  ∀ c, ∃ order : List Nat, order.Perm (List.range NBANK)
    ∧ μ (c + 1) = applyWrites
      (order.filterMap ((σ c).wrPort (rdata c) (rvalid c))) (μ c)

/-! ## Order inside a cycle -/

/-- Sixteen consecutive words have different addresses. -/
theorem tileWords_distinct (hAW : 5 ≤ AW) (d : Desc) (rd : Nat → UInt8)
    {a n : Nat} (hn : n ≤ 16) :
    (tileWords d rd AW a n).Pairwise fun w v => w.1 ≠ v.1 := by
  have h32 : 32 ≤ 2 ^ AW := by
    have := Nat.pow_le_pow_right (show 0 < 2 by decide) hAW
    omega
  refine List.pairwise_map.mpr ?_
  refine List.Pairwise.imp_of_mem ?_ (List.pairwise_lt_range (n := n))
  intro i j hi hj hij heq
  have hi := List.mem_range.mp hi
  have hj := List.mem_range.mp hj
  have h := (BitVec.add_right_inj (d.sramAddr.extractLsb' 1 AW)).mp heq
  have h := congrArg BitVec.toNat h
  rw [BitVec.toNat_ofNat, BitVec.toNat_ofNat] at h
  -- equal residues of two numbers less than 16 apart
  have hzero := Nat.sub_mod_eq_zero_of_mod_eq h.symm
  rw [Nat.mod_eq_of_lt (by omega)] at hzero
  omega

/-- The words of two bursts. -/
theorem wordsBefore_step (r : Rows) (k B : Nat) :
    wordsBefore r (min (k + 2) B) - wordsBefore r (min k B) ≤ 16 := by
  have h0 := r.take_le (r.posAt k)
  have h1 := r.take_le (r.posAt (k + 1))
  rcases Nat.lt_or_ge (k + 1) B with hlt | hge
  · rw [Nat.min_eq_left (by omega), Nat.min_eq_left (by omega)]
    show wordsBefore r k + _ + _ - _ ≤ 16
    omega
  · rcases Nat.lt_or_ge k B with hlt' | hge'
    · rw [show min (k + 2) B = k + 1 by omega, Nat.min_eq_left (by omega)]
      show wordsBefore r k + _ - _ ≤ 16
      omega
    · rw [Nat.min_eq_right (by omega), Nat.min_eq_right (by omega), Nat.sub_self]
      omega

section Memory

variable {d : Desc} {rd : Nat → UInt8} {start : Nat → Bool}
  {σ : Nat → State AW LAST} {NBANK : Nat} {rdata : Nat → Fin 2 → BitVec 128}
  {rvalid : Nat → Fin 2 → Bool} {μ : Nat → BitVec AW → BitVec 16}

/-- Nothing is written before the first answer. -/
theorem memory_before (t : Transfer d start σ) (hN : 16 ≤ NBANK)
    (hμ : SramTrace NBANK σ rdata rvalid μ) {c : Nat} (hc : c ≤ 2 + (LAST + 1)) :
    μ c = μ 0 := by
  induction c with
  | zero => rfl
  | succ c ih =>
      obtain ⟨order, hperm, hstep⟩ := hμ c
      have hquiet := (hperm.filterMap ((σ c).wrPort (rdata c) (rvalid c)))
      rw [t.ports_before hN (show c < 2 + (LAST + 1) by omega)] at hquiet
      rw [hstep, List.perm_nil.mp hquiet, applyWrites_nil, ih (by omega)]

/-- **The memory of the run.** -/
theorem memory_run (hAW : 5 ≤ AW) (t : Transfer d start σ) (h : d.Words)
    (hN : 16 ≤ NBANK) (hddr : DdrReturns d rd σ rdata rvalid)
    (hμ : SramTrace NBANK σ rdata rvalid μ) {c : Nat}
    (hc : c ≤ lastRun LAST d.bursts + 1) :
    μ (2 + c + (LAST + 1)) = applyWrites
      (tileWords d rd AW 0 (wordsBefore d.toRows (min (2 * c) d.bursts))) (μ 0) := by
  induction c with
  | zero =>
      rw [Nat.mul_zero, Nat.zero_min]
      exact memory_before t hN hμ (by omega)
  | succ c ih =>
      obtain ⟨order, hperm, hstep⟩ := hμ (2 + c + (LAST + 1))
      have hports := t.ports_words h hN hddr (show c ≤ _ by omega)
      have hwords := (hperm.filterMap ((σ (2 + c + (LAST + 1))).wrPort
        (rdata (2 + c + (LAST + 1))) (rvalid (2 + c + (LAST + 1))))).symm
      rw [hports] at hwords
      have hle := wordsBefore_step d.toRows (2 * c) d.bursts
      have hmono := wordsBefore_mono d.toRows
        (show min (2 * c) d.bursts ≤ min (2 * (c + 1)) d.bursts by omega)
      obtain ⟨m, hm⟩ := Nat.exists_eq_add_of_le hmono
      rw [show 2 + (c + 1) + (LAST + 1) = 2 + c + (LAST + 1) + 1 by omega, hstep,
        ← applyWrites_perm hwords (tileWords_distinct hAW d rd hle), ih (by omega),
        ← applyWrites_append, hm, Nat.add_sub_cancel_left, tileWords_append,
        Nat.zero_add]

end Memory

/-! ## The tile in memcpy order -/

/-- An even tile address moves in words. -/
theorem sramWord_ofNat (hAW : AW ≤ 31) {a : BitVec 32} {i cols j : Nat}
    (ha : a.toNat % 2 = 0) :
    a.extractLsb' 1 AW + BitVec.ofNat AW (i * cols + j)
      = BitVec.ofNat AW ((a.toNat + cols * 2 * i) % 4294967296 / 2 + j) := by
  have hdvd : 2 ^ AW ∣ 2147483648 := by
    have := Nat.pow_dvd_pow 2 hAW
    exact this
  have hhalf : (a.toNat + cols * 2 * i) % 4294967296 / 2
      = (a.toNat / 2 + i * cols) % 2147483648 := by
    have hmul : cols * 2 * i = 2 * (i * cols) := by
      rw [Nat.mul_comm cols 2, Nat.mul_assoc, Nat.mul_comm cols i]
    omega
  apply BitVec.eq_of_toNat_eq
  rw [BitVec.toNat_add, BitVec.extractLsb'_toNat, BitVec.toNat_ofNat,
    BitVec.toNat_ofNat, hhalf, Nat.shiftRight_eq_div_pow, Nat.pow_one,
    ← Nat.add_mod, Nat.add_mod (_ % 2147483648), Nat.mod_mod_of_dvd _ hdvd,
    ← Nat.add_mod, Nat.add_assoc]

/-- **The words of the tile are the word writes of the simulator.** -/
theorem tileWords_eq_dmaLoadWords (hAW : AW ≤ 31) {p : DMAParam}
    {rd : Nat → UInt8} (hsram : p.sramAddr.toNat % 2 = 0)
    (hdst : p.dstStride.toNat = p.cols.toNat * 2) :
    tileWords (descPorts p) rd AW 0 (p.rows.toNat * p.cols.toNat)
      = (dmaLoadWords p rd).map (portWord AW) := by
  have hrow : ∀ i < p.rows.toNat,
      tileWords (descPorts p) rd AW (i * p.cols.toNat) p.cols.toNat
        = (rowWords p rd i).map (portWord AW) := by
    intro i hi
    unfold tileWords rowWords
    rw [List.map_map]
    refine List.map_congr_left fun j hj => ?_
    have hj := List.mem_range.mp hj
    have haddr : (p.loadDst i).toNat
        = (p.sramAddr.toNat + p.cols.toNat * 2 * i) % 4294967296 := by
      rw [DMAParam.loadDst, UInt32.toNat_add, UInt32.toNat_mul, hdst,
        toNat_ofNat_lt hi, Nat.add_mod_mod]
    refine Prod.ext ?_ ?_
    · show _ = BitVec.ofNat AW ((p.loadDst i).toNat / 2 + j)
      rw [haddr]
      exact sramWord_ofNat hAW hsram
    · show (loadU16 rd ((descPorts p).toRows.start ((i * p.cols.toNat + j)
        / p.cols.toNat) + 2 * ((i * p.cols.toNat + j) % p.cols.toNat))).toBitVec = _
      rw [flat_div hj, flat_mod hj, descPorts_start p hi]
      rfl
  have hall : ∀ n ≤ p.rows.toNat, tileWords (descPorts p) rd AW 0 (n * p.cols.toNat)
      = ((List.range n).flatMap (rowWords p rd)).map (portWord AW) := by
    intro n
    induction n with
    | zero => intro _; rw [Nat.zero_mul]; rfl
    | succ n ih =>
        intro hn
        rw [Nat.add_mul, Nat.one_mul, tileWords_append, ih (by omega), Nat.zero_add,
          hrow n (by omega), List.range_succ, List.flatMap_append, List.map_append,
          List.flatMap_cons, List.flatMap_nil, List.append_nil]
  exact hall _ (Nat.le_refl _)

theorem descPorts_words {p : DMAParam} (h : p.NoWrap true)
    (hsram : p.sramAddr.toNat % 16 = 0) (hddr : p.ddrAddr.toNat % 16 = 0)
    (hstride : p.srcStride.toNat % 2 = 0) : (descPorts p).Words := by
  refine ⟨descPorts_fits h hsram hddr, descPorts_bytes h.bytes, fun i => ?_⟩
  show (p.ddrAddr.toNat + p.srcStride.toNat * i) % 4294967296 % 2 = 0
  have : p.srcStride.toNat * i % 2 = 0 := by
    rw [Nat.mul_mod, hstride, Nat.zero_mul]
  omega

/-! ## Refinement -/

/-- The memory when `done` rises. -/
theorem memory_done (hAW : 5 ≤ AW) (hAW' : AW ≤ 31) {NBANK : Nat} (hN : 16 ≤ NBANK)
    {p : DMAParam} (hwords : (descPorts p).Words) (hsram : p.sramAddr.toNat % 2 = 0)
    (hdst : p.dstStride.toNat = p.cols.toNat * 2) {rd : Nat → UInt8}
    {start : Nat → Bool} {σ : Nat → State AW LAST}
    (t : Transfer (descPorts p) start σ) {rdata : Nat → Fin 2 → BitVec 128}
    {rvalid : Nat → Fin 2 → Bool} (hret : DdrReturns (descPorts p) rd σ rdata rvalid)
    {μ : Nat → BitVec AW → BitVec 16} (hμ : SramTrace NBANK σ rdata rvalid μ) :
    μ (lastRun LAST (descPorts p).bursts + 3)
      = applyWrites ((dmaLoadWords p rd).map (portWord AW)) (μ 0) := by
  have htotal : wordsBefore (descPorts p).toRows (descPorts p).bursts
      = p.rows.toNat * p.cols.toNat := wordsBefore_bursts hwords
  rw [← tileWords_eq_dmaLoadWords hAW' hsram hdst, ← htotal]
  rcases Transfer.lastRun_answers LAST (descPorts p).bursts
    with ⟨hlast, hB⟩ | ⟨hzero, hlast⟩
  · rw [hlast, memory_run hAW t hwords hN hret hμ (by omega), Nat.min_eq_right hB]
  · rw [hlast, hzero, memory_before t hN hμ (by omega)]
    rfl

/-- **The engine refines `execDmaLoad`**: when `done` rises, the SRAM is the
initial one with the word writes of `execDmaLoad` applied in its order, word
addresses modulo `2 ^ AW`, and no port ever named a word outside the tile.
The second part is what these word writes are: all that `execDmaLoad` does. -/
theorem dma_refines (hAW : 5 ≤ AW) (hAW' : AW ≤ 31) {NBANK : Nat}
    (hN : 16 ≤ NBANK) {p : DMAParam} (hp : p.NoWrap true)
    (hsram : p.sramAddr.toNat % 16 = 0) (hddr : p.ddrAddr.toNat % 16 = 0)
    (hsrc : p.srcStride.toNat % 2 = 0) (hdst : p.dstStride.toNat = p.cols.toNat * 2)
    {rd : Nat → UInt8} {start : Nat → Bool} {σ : Nat → State AW LAST}
    (t : Transfer (descPorts p) start σ) {rdata : Nat → Fin 2 → BitVec 128}
    {rvalid : Nat → Fin 2 → Bool} (hret : DdrReturns (descPorts p) rd σ rdata rvalid)
    {μ : Nat → BitVec AW → BitVec 16} (hμ : SramTrace NBANK σ rdata rvalid μ) :
    (∃ n, (σ n).done = true ∧ (∀ c < n, (σ c).done = false)
      ∧ μ n = applyWrites ((dmaLoadWords p rd).map (portWord AW)) (μ 0)
      ∧ ∀ c < n, ∀ k < NBANK, ∀ w,
        (σ c).wrPort (rdata c) (rvalid c) k = some w →
          ∃ j < p.rows.toNat * p.cols.toNat,
            w.1 = BitVec.ofNat AW (p.sramAddr.toNat / 2 + j))
    ∧ ∀ (s s' : CModel) (descPtr : UInt32), s.ddrByte = rd →
        readDesc DMAParam.load 24 descPtr s = .ok p →
        execDmaLoad descPtr s = .ok s' →
        s' = (dmaLoadWords p rd).foldl CModel.storeWord s := by
  have hwords := descPorts_words hp hsram hddr hsrc
  obtain ⟨hdone, hfirst⟩ := t.done_first hwords.fits.walk
  have htotal : wordsBefore (descPorts p).toRows (descPorts p).bursts
      = p.rows.toNat * p.cols.toNat := wordsBefore_bursts hwords
  refine ⟨⟨lastRun LAST (descPorts p).bursts + 3, hdone, hfirst,
    memory_done hAW hAW' hN hwords (by omega) hdst t hret hμ, ?_⟩, ?_⟩
  · intro c hc k hk w hw
    have hmem : w ∈ (List.range NBANK).filterMap
        ((σ c).wrPort (rdata c) (rvalid c)) :=
      List.mem_filterMap.mpr ⟨k, List.mem_range.mpr hk, hw⟩
    by_cases hearly : c < 2 + (LAST + 1)
    · rw [t.ports_before hN hearly] at hmem
      cases hmem
    · obtain ⟨c, rfl⟩ : ∃ c', c = 2 + c' + (LAST + 1) := ⟨c - (LAST + 3), by omega⟩
      rw [t.ports_words hwords hN hret (by omega)] at hmem
      obtain ⟨j, hj, rfl⟩ := List.mem_map.mp hmem
      have hj := List.mem_range.mp hj
      have hle := wordsBefore_mono (descPorts p).toRows
        (show min (2 * (c + 1)) (descPorts p).bursts ≤ (descPorts p).bursts by omega)
      exact ⟨_, by omega, (BitVec.ofNat_add _ _).symm⟩
  · intro s s' descPtr hs hread hexec
    rw [execDmaLoad, hread, ok_bind] at hexec
    subst hs
    exact dmaLoad_eq_words (by omega) (by omega) hexec

/-! ## The test bench -/

/-- The eight words of a block. -/
def ddrBlock (rd : Nat → UInt8) (a : Nat) : BitVec 128 :=
  (BitVec.ofBoolListLE ((List.range 128).map fun i =>
    (loadU16 rd (a + 2 * (i / 16))).toBitVec.getLsbD (i % 16))).setWidth 128

theorem ddrBlock_lane (rd : Nat → UInt8) (a : Nat) {w : Nat} (hw : w < 8) :
    (ddrBlock rd a).extractLsb' (16 * w) 16 = (loadU16 rd (a + 2 * w)).toBitVec := by
  apply BitVec.eq_of_getLsbD_eq
  intro i hi
  have hbit : 16 * w + i < 128 := by omega
  rw [BitVec.getLsbD_extractLsb', decide_eq_true hi, Bool.true_and, ddrBlock,
    BitVec.getLsbD_setWidth, decide_eq_true hbit, Bool.true_and,
    BitVec.getLsbD_ofBoolListLE, List.getD_eq_getElem?_getD, List.getElem?_map,
    List.getElem?_range hbit]
  show (loadU16 rd (a + 2 * ((16 * w + i) / 16))).toBitVec.getLsbD ((16 * w + i) % 16) = _
  rw [show (16 * w + i) / 16 = w by omega, show (16 * w + i) % 16 = i by omega]

/-- A DDR that answers every request `LAST + 1` cycles later. -/
def benchValid (d : Desc) (σ : Nat → State AW LAST) (c : Nat) (slot : Fin 2) : Bool :=
  if c < LAST + 1 then false else (σ (c - (LAST + 1))).ddrRen d slot

def benchData (d : Desc) (rd : Nat → UInt8) (σ : Nat → State AW LAST) (c : Nat)
    (slot : Fin 2) : BitVec 128 :=
  ddrBlock rd ((σ (c - (LAST + 1))).ddrRaddr d slot).toNat

theorem bench_returns (d : Desc) (rd : Nat → UInt8) (σ : Nat → State AW LAST) :
    DdrReturns d rd σ (benchData d rd σ) (benchValid d σ) where
  valid c slot := by
    rw [benchValid, if_neg (by omega), Nat.add_sub_cancel]
  data c slot _ w hw := by
    rw [benchData, Nat.add_sub_cancel]
    exact ddrBlock_lane rd _ hw

/-- An SRAM that serves its ports in order. -/
def benchSram (NBANK : Nat) (σ : Nat → State AW LAST)
    (rdata : Nat → Fin 2 → BitVec 128) (rvalid : Nat → Fin 2 → Bool)
    (m : BitVec AW → BitVec 16) : Nat → BitVec AW → BitVec 16
  | 0 => m
  | c + 1 => applyWrites
      ((List.range NBANK).filterMap ((σ c).wrPort (rdata c) (rvalid c)))
      (benchSram NBANK σ rdata rvalid m c)

theorem bench_trace (NBANK : Nat) (σ : Nat → State AW LAST)
    (rdata : Nat → Fin 2 → BitVec 128) (rvalid : Nat → Fin 2 → Bool)
    (m : BitVec AW → BitVec 16) :
    SramTrace NBANK σ rdata rvalid (benchSram NBANK σ rdata rvalid m) :=
  fun _ => ⟨List.range NBANK, List.Perm.refl _, rfl⟩

/-- The run of the 15x31 tile from a DDR that holds its own addresses. -/
def matmulLhsRun : Nat → State 12 3 :=
  simulate (descPorts loadMatmulLhs) (fun _ => true) powerOn.reset

def addressBytes : Nat → UInt8 := UInt8.ofNat

theorem dma_refines_loadMatmulLhs :
    ∃ n, (matmulLhsRun n).done = true
      ∧ benchSram 16 matmulLhsRun
          (benchData (descPorts loadMatmulLhs) addressBytes matmulLhsRun)
          (benchValid (descPorts loadMatmulLhs) matmulLhsRun) (fun _ => 0#16) n
        = applyWrites ((dmaLoadWords loadMatmulLhs addressBytes).map (portWord 12))
          fun _ => 0#16 := by
  obtain ⟨n, hdone, -, hmem, -⟩ := (dma_refines (by decide) (by decide)
    (Nat.le_refl 16) (p := loadMatmulLhs) ⟨by decide, by decide, by decide⟩
    (by decide) (by decide) (by decide) (by decide)
    (simulate_transfer (descPorts loadMatmulLhs) (fun _ => true) rfl powerOn)
    (bench_returns (descPorts loadMatmulLhs) addressBytes matmulLhsRun)
    (bench_trace 16 matmulLhsRun _ _ fun _ => 0#16)).1
  exact ⟨n, hdone, hmem⟩

end EclipseNpu.Rtl

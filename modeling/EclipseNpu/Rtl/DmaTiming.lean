import EclipseNpu.Rtl.DmaRun
import EclipseNpu.Runtime.Cycles
import Mathlib.Algebra.BigOperators.Fin

/-!
# Rtl — DmaTiming

The engine against the cycle model: as many bursts as `cyclesDma` counts, in
half as many cycles rounded up once, and a fixed overhead of
`3 + DDR_LATENCY` where the model adds `DMA_FIXED_OVERHEAD`.
-/

namespace EclipseNpu.Rtl

open EclipseNpu.Lib EclipseNpu.Runtime

/-! ## A descriptor on the ports -/

def descPorts (p : DMAParam) : Desc :=
  { sramAddr := p.sramAddr.toBitVec, ddrAddr := p.ddrAddr.toBitVec
    rows := p.rows.toBitVec, cols := p.cols.toBitVec
    srcStride := p.srcStride.toBitVec }

theorem descPorts_start (p : DMAParam) {i : Nat} (hi : i < p.rows.toNat) :
    (descPorts p).toRows.start i = (p.loadSrc i).toNat := by
  rw [DMAParam.loadSrc, UInt32.toNat_add, UInt32.toNat_mul, toNat_ofNat_lt hi]
  show (p.ddrAddr.toNat + p.srcStride.toNat * i) % 4294967296 = _
  rw [Nat.add_mod_mod]

theorem descPorts_bytes {p : DMAParam} (h : p.cols.toNat * 2 < 4294967296) :
    (descPorts p).toRows.bytes = p.cols.toNat * 2 := by
  show (p.cols.toBitVec <<< 1).toNat = _
  rw [BitVec.toNat_shiftLeft, Nat.shiftLeft_eq, Nat.mod_eq_of_lt (by exact h)]
  rfl

theorem descPorts_aligned {p : DMAParam} (hsram : p.sramAddr.toNat % 16 = 0)
    (hddr : p.ddrAddr.toNat % 16 = 0) : (descPorts p).alignedOk = true := by
  have hlow : ∀ x : UInt32, x.toNat % 16 = 0 → x.toBitVec.extractLsb' 0 4 = 0#4 := by
    intro x hx
    apply BitVec.eq_of_toNat_eq
    rw [BitVec.extractLsb'_toNat, Nat.shiftRight_zero]
    exact hx
  rw [Desc.alignedOk, Bool.and_eq_true, beq_iff_eq, beq_iff_eq]
  exact ⟨hlow _ hsram, hlow _ hddr⟩

theorem descPorts_fits {p : DMAParam} (h : p.NoWrap true)
    (hsram : p.sramAddr.toNat % 16 = 0) (hddr : p.ddrAddr.toNat % 16 = 0) :
    (descPorts p).Fits := by
  have hbytes := descPorts_bytes h.bytes
  have hcols := h.cols
  refine ⟨descPorts_aligned hsram hddr, by omega, fun i hi => ?_⟩
  rw [hbytes, descPorts_start p hi]
  exact h.rows i hi

/-- The engine counts the blocks the cycle model counts. -/
theorem descPorts_bursts {p : DMAParam} (h : p.NoWrap true) :
    (descPorts p).bursts = p.blocks true := by
  have hcols := h.cols
  unfold Desc.bursts Rows.blocksBefore DMAParam.blocks
  refine Finset.sum_congr rfl fun i hi => ?_
  rw [descPorts_start p (Finset.mem_range.mp hi), descPorts_bytes h.bytes,
    card_touchedBlocks (by omega)]
  rfl

/-! ## Requests -/

variable {AW LAST : Nat}

/-- The requests of a cycle. -/
def requests (d : Desc) (s : State AW LAST) : Nat :=
  ∑ slot, (s.ddrRen d slot).toNat

theorem requests_eq (d : Desc) (s : State AW LAST) :
    requests d s = (s.issueV0 d).toNat + (s.issueV1 d).toNat :=
  Fin.sum_univ_two _

section Requests

variable {d : Desc} {start : Nat → Bool} {σ : Nat → State AW LAST}

theorem requests_before (t : Transfer d start σ) {c : Nat} (hc : c < 2) :
    requests d (σ c) = 0 := by
  have h0 := t.issue_before hc
  have h1 := issueV1_of_issueV0 h0
  rw [requests_eq, h0, h1]
  rfl

theorem requests_run (t : Transfer d start σ) (h : d.Fits) {c : Nat}
    (hc : c ≤ lastRun LAST d.bursts) :
    requests d (σ (2 + c)) = min 2 (d.bursts - 2 * c) := by
  obtain ⟨h0, h1⟩ := t.issue h.walk hc
  rw [requests_eq, h0, h1]
  by_cases hc0 : 2 * c < d.bursts
  · by_cases hc1 : 2 * c + 1 < d.bursts
    · rw [decide_eq_true hc0, decide_eq_true hc1]
      show 2 = _
      omega
    · rw [decide_eq_true hc0, decide_eq_false hc1]
      show 1 = _
      omega
  · rw [decide_eq_false hc0, decide_eq_false (by omega)]
    show 0 = _
    omega

theorem requests_done (t : Transfer d start σ) (h : d.Fits) :
    requests d (σ (lastRun LAST d.bursts + 3)) = 0 := by
  have hdone := of_decide_eq_true (t.done_first h.walk).1
  have h0 : (σ (lastRun LAST d.bursts + 3)).issueV0 d = false :=
    issueV0_of_not_run (by rw [hdone]; decide)
  rw [requests_eq, h0, issueV1_of_issueV0 h0]
  rfl

/-- The requests of the first cycles of `S_RUN`. -/
theorem sum_requests (t : Transfer d start σ) (h : d.Fits) {c : Nat}
    (hc : c ≤ lastRun LAST d.bursts + 1) :
    ∑ i ∈ Finset.range (2 + c), requests d (σ i) = min (2 * c) d.bursts := by
  induction c with
  | zero =>
      rw [Finset.sum_range_succ, Finset.sum_range_one,
        requests_before t (by omega), requests_before t (by omega), Nat.mul_zero,
        Nat.zero_min]
  | succ c ih =>
      rw [← Nat.add_assoc, Finset.sum_range_succ, ih (by omega),
        requests_run t h (by omega)]
      omega

end Requests

/-- **The engine's timing matches the cycle model**: with `B` the number of
blocks the rows touch, `B` is the burst total of `cyclesDma`, `cyclesDma` is
`ceil(B / 2) + 16`, the engine raises `B` requests in `ceil(B / 2)`
consecutive cycles, and `done` is first high `ceil(B / 2) + 3 + DDR_LATENCY`
cycles after `desc_start`. -/
theorem dma_timing {DDR_LATENCY : Nat} (hL : DDR_LATENCY = LAST + 1)
    {p : DMAParam} (hp : p.NoWrap true) (hrows : 0 < p.rows.toNat)
    (hsram : p.sramAddr.toNat % 16 = 0) (hddr : p.ddrAddr.toNat % 16 = 0)
    {s : CModel} {descPtr : UInt32}
    (hread : readDesc DMAParam.load 24 descPtr s = .ok p)
    {start : Nat → Bool} {σ : Nat → State AW LAST}
    (t : Transfer (descPorts p) start σ) :
    (dmaBursts p true).toNat = p.blocks true
      ∧ cyclesDma s descPtr true
        = .ok (UInt64.ofNat ((p.blocks true + 1) / 2 + 16))
      ∧ ∑ c ∈ Finset.range ((p.blocks true + 1) / 2 + 3 + DDR_LATENCY + 1),
          requests (descPorts p) (σ c) = p.blocks true
      ∧ (∃ first, ∀ c ≤ (p.blocks true + 1) / 2 + 3 + DDR_LATENCY,
          0 < requests (descPorts p) (σ c)
            ↔ first ≤ c ∧ c < first + (p.blocks true + 1) / 2)
      ∧ (σ ((p.blocks true + 1) / 2 + 3 + DDR_LATENCY)).done = true
      ∧ ∀ c < (p.blocks true + 1) / 2 + 3 + DDR_LATENCY, (σ c).done = false := by
  have hfits := descPorts_fits hp hsram hddr
  have hB := descPorts_bursts hp
  have hpos : 0 < p.blocks true := by
    have hcols := hp.cols
    obtain ⟨n, hn⟩ : ∃ n, p.rows.toNat = n + 1 := ⟨p.rows.toNat - 1, by omega⟩
    rw [DMAParam.blocks, hn, Finset.sum_range_succ, card_touchedBlocks (by omega)]
    unfold blockCount
    omega
  have hlast : lastRun LAST (descPorts p).bursts + 3
      = (p.blocks true + 1) / 2 + 3 + DDR_LATENCY := by
    rw [hB, lastRun, if_neg (by omega), hL]
    omega
  obtain ⟨hdone, hfirst⟩ := t.done_first hfits.walk
  rw [hlast] at hdone hfirst
  refine ⟨dmaBursts_toNat hp, cyclesDma_eq hp hread, ?_, ⟨2, fun c hc => ?_⟩,
    hdone, hfirst⟩
  · have hsum := sum_requests t hfits (Nat.le_refl _)
    have hge := Transfer.lastRun_ge LAST (descPorts p).bursts
    rw [Finset.sum_range_succ, ← hlast, requests_done t hfits, Nat.add_zero,
      show lastRun LAST (descPorts p).bursts + 3
        = 2 + (lastRun LAST (descPorts p).bursts + 1) by omega, hsum, ← hB]
    omega
  · by_cases h2 : c < 2
    · rw [requests_before t h2]
      omega
    · obtain ⟨c, rfl⟩ : ∃ c', c = 2 + c' := ⟨c - 2, by omega⟩
      rcases Nat.lt_or_ge (lastRun LAST (descPorts p).bursts) c with hgt | hle
      · obtain rfl : c = lastRun LAST (descPorts p).bursts + 1 := by omega
        rw [show 2 + (lastRun LAST (descPorts p).bursts + 1)
          = lastRun LAST (descPorts p).bursts + 3 by omega, requests_done t hfits]
        omega
      · rw [requests_run t hfits hle, hB]
        omega

/-- The 15x31 tile with a stride of 64 bytes: 60 bursts. -/
def loadMatmulLhs : DMAParam :=
  { sramAddr := 0x10000000, ddrAddr := 0x40010000, rows := 15, cols := 31
    srcStride := 64, dstStride := 62 }

/-- An engine of the default size with nothing in its pipeline. -/
def powerOn : State 12 3 :=
  { state := .S_IDLE, cur := ⟨0#32, 0#32, 0#32, 0#32⟩, wptr := 0#12
    pl := fun _ => ⟨0#12, 0#4, 0#4, 0#4, 0#4, false, false⟩ }

theorem dma_timing_loadMatmulLhs :
    (simulate (descPorts loadMatmulLhs) (fun _ => true) powerOn.reset 37).done = true
      ∧ ∀ c < 37,
        (simulate (descPorts loadMatmulLhs) (fun _ => true) powerOn.reset c).done
          = false := by
  have hmem : readDesc DMAParam.load 24 0x40000100
      (CModel.storeDdr (fun _ => 0) 0x40000100 loadMatmulLhs.bytes)
      = .ok loadMatmulLhs :=
    readDesc_ok_iff.mpr ⟨by decide,
      (DMAParam.load_bytes (storeDdr_holds _ _ _)).symm⟩
  have hB : loadMatmulLhs.blocks true = 60 := by decide +kernel
  obtain ⟨-, -, -, -, hdone, hfirst⟩ := dma_timing (show 4 = 3 + 1 from rfl)
    (p := loadMatmulLhs) ⟨by decide, by decide, by decide⟩ (by decide) (by decide)
    (by decide) hmem
    (simulate_transfer (descPorts loadMatmulLhs) (fun _ => true) rfl powerOn)
  rw [hB] at hdone hfirst
  exact ⟨hdone, hfirst⟩

end EclipseNpu.Rtl

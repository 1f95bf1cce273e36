import EclipseNpu.Runtime.Stream
import EclipseNpu.Tools.HazardCheck

/-!
# Tools — OrderIndependence

What the checker's verdict is worth on a machine that does not wait
between instructions: a stream without hazards ends in the same memory in
every order that respects its SYNCs.

The checker works on unbounded intervals and the executor on wrapping
32-bit addresses, so the link between them (`reads_covered`,
`writes_covered`) needs that no address the executor computes wraps
(`NoWrap`), and for the broadcast operand that the stride is one the
compiler emits (`StrideForm`).
-/

namespace EclipseNpu.Tools

open EclipseNpu.Lib EclipseNpu.Runtime

/-! ## Side conditions on a stream -/

/-- The flat index of an lhs element, as an unbounded integer. -/
def lhsIndex (p : MatmulParam) (m k : Nat) : Nat :=
  if p.transA then k * p.M.toNat + m else m * p.K.toNat + k

def rhsIndex (p : MatmulParam) (k n : Nat) : Nat :=
  if p.transB then n * p.K.toNat + k else k * p.N.toNat + n

/-- The flat index of the broadcast rhs element of `i`. -/
def ewiseRhsIndex (p : EwiseParam) (i : Nat) : Nat :=
  i / p.cols.toNat * p.rhsStride.toNat + i % p.rhsBlk.toNat

/-- No byte address the executor computes reaches `2 ^ 32`. -/
def NoWrap : EasmInsn → Prop
  | .dmaLoad _ p => ∀ i < p.rows.toNat,
      p.ddrAddr.toNat + i * p.srcStride.toNat < 4294967296
        ∧ p.sramAddr.toNat + i * p.dstStride.toNat < 4294967296
  | .dmaStore _ p => ∀ i < p.rows.toNat,
      p.sramAddr.toNat + i * p.srcStride.toNat < 4294967296
        ∧ p.ddrAddr.toNat + i * p.dstStride.toNat < 4294967296
  | .matmul _ p => ∀ m < p.M.toNat, ∀ n < p.N.toNat,
      (∀ k < p.K.toNat,
        p.lhsAddr.toNat + lhsIndex p m k * 2 < 4294967296
          ∧ p.rhsAddr.toNat + rhsIndex p k n * 2 < 4294967296)
        ∧ p.dstAddr.toNat + (m * p.N.toNat + n) * 2 < 4294967296
  | .elementwise _ _ p => ∀ i < (p.rows * p.cols).toNat,
      p.lhsAddr.toNat + i * 2 < 4294967296
        ∧ p.rhsAddr.toNat + ewiseRhsIndex p i * 2 < 4294967296
        ∧ p.dstAddr.toNat + i * 2 < 4294967296
  | .act _ p => ∀ i < p.n.toNat,
      p.srcAddr.toNat + i * 2 < 4294967296
        ∧ p.dstAddr.toNat + i * 2 < 4294967296
  | .reduce _ p => ∀ i < p.rows.toNat,
      (∀ j < p.cols.toNat,
        p.srcAddr.toNat + (i * p.cols.toNat + j) * 2 < 4294967296)
        ∧ p.dstAddr.toNat + i * 2 < 4294967296
        ∧ (p.kind = 3 → p.idxAddr.toNat + i * 4 < 4294967296)
  | .sync => True

/-- The rhs strides the compiler emits: 0 or one block. -/
def StrideForm : EasmInsn → Prop
  | .elementwise _ _ p => p.rhsStride = 0 ∨ p.rhsStride = p.rhsBlk
  | _ => True

/-! ## The checker sees every byte -/

/-- Some named interval covers `a`. -/
def CoveredBy (named : List (String × Ranges)) (a : Nat) : Prop :=
  ∃ r ∈ named, Covers r.2 a

theorem covers_tile {base rows cols stride i j : Nat} (hi : i < rows)
    (hj : j < cols * 2) :
    Covers (tileRanges base rows cols stride) (base + i * stride + j) :=
  ⟨(base + i * stride, base + i * stride + cols * 2),
    List.mem_map.mpr ⟨i, List.mem_range.mpr hi, rfl⟩, by omega, by omega⟩

/-- Both bytes of element `o` of an array of `n` elements. -/
theorem covers_elem {addr : UInt32} {base o n : Nat} {l : Loc}
    (haddr : addr.toNat = base + o * 2) (ho : o < n) (hl : l ∈ elemBytes addr) :
    Covers (flatRange base n) l.addr := by
  refine ⟨(base, base + n * 2), by simp [flatRange], ?_⟩
  rcases hl with rfl | rfl
  · rw [Loc.addr_sram, haddr]
    exact ⟨by omega, by omega⟩
  · rw [Loc.addr_sram, haddr]
    exact ⟨by omega, by omega⟩

theorem toNat_lhsElem {p : MatmulParam} {m k : Nat} (hm : m < p.M.toNat)
    (hk : k < p.K.toNat)
    (hw : p.lhsAddr.toNat + lhsIndex p m k * 2 < 4294967296) :
    (p.lhsElem m k).toNat = p.lhsAddr.toNat + lhsIndex p m k * 2 := by
  refine toNat_elem ?_ hw
  have em := toNat_ofNat_lt hm
  have ek := toNat_ofNat_lt hk
  unfold lhsIndex at hw ⊢
  unfold MatmulParam.lhsOff
  by_cases ht : p.transA = true
  · rw [if_pos ht] at hw ⊢
    rw [if_pos ht, toNat_mulAdd (by rw [em, ek]; omega), em, ek]
  · rw [if_neg ht] at hw ⊢
    rw [if_neg ht, toNat_mulAdd (by rw [em, ek]; omega), em, ek]

theorem toNat_rhsElem {p : MatmulParam} {k n : Nat} (hk : k < p.K.toNat)
    (hn : n < p.N.toNat)
    (hw : p.rhsAddr.toNat + rhsIndex p k n * 2 < 4294967296) :
    (p.rhsElem k n).toNat = p.rhsAddr.toNat + rhsIndex p k n * 2 := by
  refine toNat_elem ?_ hw
  have en := toNat_ofNat_lt hn
  have ek := toNat_ofNat_lt hk
  unfold rhsIndex at hw ⊢
  unfold MatmulParam.rhsOff
  by_cases ht : p.transB = true
  · rw [if_pos ht] at hw ⊢
    rw [if_pos ht, toNat_mulAdd (by rw [en, ek]; omega), en, ek]
  · rw [if_neg ht] at hw ⊢
    rw [if_neg ht, toNat_mulAdd (by rw [en, ek]; omega), en, ek]

theorem lhsIndex_lt {p : MatmulParam} {m k : Nat} (hm : m < p.M.toNat)
    (hk : k < p.K.toNat) : lhsIndex p m k < p.M.toNat * p.K.toNat := by
  unfold lhsIndex
  split
  · rw [Nat.mul_comm p.M.toNat]
    exact flat_lt hk hm
  · exact flat_lt hm hk

theorem rhsIndex_lt {p : MatmulParam} {k n : Nat} (hk : k < p.K.toNat)
    (hn : n < p.N.toNat) : rhsIndex p k n < p.K.toNat * p.N.toNat := by
  unfold rhsIndex
  split
  · rw [Nat.mul_comm p.K.toNat]
    exact flat_lt hn hk
  · exact flat_lt hk hn

theorem toNat_dstElem {p : MatmulParam} {m n : Nat} (hm : m < p.M.toNat)
    (hn : n < p.N.toNat)
    (hw : p.dstAddr.toNat + (m * p.N.toNat + n) * 2 < 4294967296) :
    (p.dstElem m n).toNat = p.dstAddr.toNat + (m * p.N.toNat + n) * 2 := by
  have em := toNat_ofNat_lt hm
  have en := toNat_ofNat_lt hn
  refine toNat_elem ?_ hw
  rw [toNat_mulAdd (by rw [em, en]; omega), em, en]

theorem toNat_packedElem {base : UInt32} {i : Nat}
    (hw : base.toNat + i * 2 < 4294967296) :
    (packedElem base i).toNat = base.toNat + i * 2 := by
  refine toNat_elem ?_ hw
  rw [UInt32.toNat_ofNat', Nat.mod_eq_of_lt (by omega)]

theorem toNat_ewiseRhsElem {p : EwiseParam} {i : Nat}
    (hi : (UInt32.ofNat i).toNat = i)
    (hw : p.rhsAddr.toNat + ewiseRhsIndex p i * 2 < 4294967296) :
    (p.rhsElem i).toNat = p.rhsAddr.toNat + ewiseRhsIndex p i * 2 := by
  refine toNat_elem ?_ hw
  unfold ewiseRhsIndex at hw
  rw [EwiseParam.rhsIndex, toNat_mulAdd (by
    rw [UInt32.toNat_div, UInt32.toNat_mod, hi]; omega),
    UInt32.toNat_div, UInt32.toNat_mod, hi]
  rfl

theorem toNat_srcElem {p : ReduceParam} {i j : Nat} (hi : i < p.rows.toNat)
    (hj : j < p.cols.toNat)
    (hw : p.srcAddr.toNat + (i * p.cols.toNat + j) * 2 < 4294967296) :
    (p.srcElem i j).toNat = p.srcAddr.toNat + (i * p.cols.toNat + j) * 2 := by
  have ei := toNat_ofNat_lt hi
  have ej := toNat_ofNat_lt hj
  have hrow : (p.rowAddr i).toNat
      = p.srcAddr.toNat + i * p.cols.toNat * 2 := by
    refine toNat_elem ?_ (by omega)
    rw [UInt32.toNat_mul, ei, Nat.mod_eq_of_lt (by omega)]
  rw [ReduceParam.srcElem, toNat_elem ej (by rw [hrow]; omega), hrow]
  ring

/-- The broadcast rhs stays inside the elements the checker counts. -/
theorem ewiseRhsIndex_lt {p : EwiseParam} {i : Nat}
    (hi : i < p.rows.toNat * p.cols.toNat) (hb : 0 < p.rhsBlk.toNat)
    (hs : p.rhsStride = 0 ∨ p.rhsStride = p.rhsBlk) :
    ewiseRhsIndex p i
      < p.rhsBlk.toNat * (if p.rhsStride ≠ 0 then p.rows.toNat else 1) := by
  have hmod : i % p.rhsBlk.toNat < p.rhsBlk.toNat := Nat.mod_lt _ hb
  by_cases hz : p.rhsStride = 0
  · rw [if_neg (by simpa using hz)]
    simp only [ewiseRhsIndex, hz, UInt32.toNat_zero, Nat.mul_zero, Nat.zero_add,
      Nat.mul_one]
    exact hmod
  · have hblk : p.rhsStride = p.rhsBlk := hs.resolve_left hz
    rw [if_pos hz, ewiseRhsIndex, hblk, Nat.mul_comm p.rhsBlk.toNat]
    exact flat_lt (Nat.div_lt_of_lt_mul (by rwa [Nat.mul_comm])) hmod

/-- The loop bound of ELEMENTWISE is at most the checker's `rows * cols`. -/
theorem ewise_bound {p : EwiseParam} {i : Nat}
    (hi : i < (p.rows * p.cols).toNat) : i < p.rows.toNat * p.cols.toNat := by
  rw [UInt32.toNat_mul] at hi
  exact Nat.lt_of_lt_of_le hi (Nat.mod_le _ _)

/-- **Every byte an instruction reads is in a read interval.** -/
theorem reads_covered {x : EasmInsn} (hw : NoWrap x) (hs : StrideForm x)
    {l : Loc} (hl : l ∈ x.reads) :
    CoveredBy (parseInstruction x).reads l.addr := by
  cases x with
  | dmaLoad d p =>
      obtain ⟨i, hi, j, hj, rfl⟩ := hl
      refine ⟨_, List.mem_singleton.mpr rfl, ?_⟩
      rw [Loc.addr_ddr, DMAParam.loadSrc,
        toNat_row (toNat_ofNat_lt hi) (hw i hi).1]
      exact covers_tile hi hj
  | dmaStore d p =>
      obtain ⟨i, hi, j, hj, rfl⟩ := hl
      refine ⟨_, List.mem_singleton.mpr rfl, ?_⟩
      rw [Loc.addr_sram, DMAParam.storeSrc,
        toNat_row (toNat_ofNat_lt hi) (hw i hi).1]
      exact covers_tile hi hj
  | matmul d p =>
      rcases hl with ⟨m, hm, n, hn, k, hk, hl | hl⟩ | ⟨hacc, m, hm, n, hn, hl⟩
      · have hlhs := ((hw m hm n hn).1 k hk).1
        exact ⟨_, List.mem_append_left _ (List.mem_cons_self ..),
          covers_elem (toNat_lhsElem hm hk hlhs) (lhsIndex_lt hm hk) hl⟩
      · have hrhs := ((hw m hm n hn).1 k hk).2
        exact ⟨("rhs", flatRange p.rhsAddr.toNat (p.K.toNat * p.N.toNat)),
          List.mem_append_left _ (by simp),
          covers_elem (toNat_rhsElem hk hn hrhs) (rhsIndex_lt hk hn) hl⟩
      · refine ⟨("dst", flatRange p.dstAddr.toNat (p.M.toNat * p.N.toNat)),
          List.mem_append_right _ ?_,
          covers_elem (toNat_dstElem hm hn (hw m hm n hn).2) (flat_lt hm hn) hl⟩
        rw [if_pos hacc]
        exact List.mem_singleton.mpr rfl
  | elementwise op d p =>
      obtain ⟨⟨hc, hb⟩, i, hi, hl | hl⟩ := hl
      · exact ⟨_, List.mem_cons_self ..,
          covers_elem (toNat_packedElem (hw i hi).1) (ewise_bound hi) hl⟩
      · have hb' : 0 < p.rhsBlk.toNat := by
          have := mt UInt32.toNat_inj.mp hb
          simp only [UInt32.toNat_zero] at this
          omega
        exact ⟨_, List.mem_cons_of_mem _ (List.mem_cons_self ..),
          covers_elem (toNat_ewiseRhsElem (toNat_ofNat_lt hi) (hw i hi).2.1)
            (ewiseRhsIndex_lt (ewise_bound hi) hb' hs) hl⟩
  | act d p =>
      obtain ⟨i, hi, hl⟩ := hl
      exact ⟨_, List.mem_singleton.mpr rfl,
        covers_elem (toNat_packedElem (hw i hi).1) hi hl⟩
  | reduce d p =>
      obtain ⟨i, hi, j, hj, hl⟩ := hl
      exact ⟨_, List.mem_singleton.mpr rfl,
        covers_elem (toNat_srcElem hi hj ((hw i hi).1 j hj)) (flat_lt hi hj) hl⟩
  | sync => exact absurd hl (by simp [EasmInsn.reads])

/-- **Every byte an instruction writes is in a write interval.** -/
theorem writes_covered {x : EasmInsn} (hw : NoWrap x) {l : Loc}
    (hl : l ∈ x.writes) : CoveredBy (parseInstruction x).writes l.addr := by
  cases x with
  | dmaLoad d p =>
      obtain ⟨i, hi, j, hj, rfl⟩ := hl
      refine ⟨_, List.mem_singleton.mpr rfl, ?_⟩
      rw [Loc.addr_sram, DMAParam.loadDst,
        toNat_row (toNat_ofNat_lt hi) (hw i hi).2]
      exact covers_tile hi hj
  | dmaStore d p =>
      obtain ⟨i, hi, j, hj, rfl⟩ := hl
      refine ⟨_, List.mem_singleton.mpr rfl, ?_⟩
      rw [Loc.addr_ddr, DMAParam.storeDst,
        toNat_row (toNat_ofNat_lt hi) (hw i hi).2]
      exact covers_tile hi hj
  | matmul d p =>
      obtain ⟨m, hm, n, hn, hl⟩ := hl
      exact ⟨_, List.mem_singleton.mpr rfl,
        covers_elem (toNat_dstElem hm hn (hw m hm n hn).2) (flat_lt hm hn) hl⟩
  | elementwise op d p =>
      obtain ⟨i, hi, hl⟩ := hl
      exact ⟨_, List.mem_singleton.mpr rfl,
        covers_elem (toNat_packedElem (hw i hi).2.2) (ewise_bound hi) hl⟩
  | act d p =>
      obtain ⟨i, hi, hl⟩ := hl
      exact ⟨_, List.mem_singleton.mpr rfl,
        covers_elem (toNat_packedElem (hw i hi).2) hi hl⟩
  | reduce d p =>
      obtain ⟨i, hi, hl | ⟨hk, j, hj, rfl⟩⟩ := hl
      · exact ⟨_, List.mem_append_left _ (List.mem_singleton.mpr rfl),
          covers_elem (toNat_packedElem (hw i hi).2.1) hi hl⟩
      · have hk3 : p.kind = 3 := hk
        have hidx := (hw i hi).2.2 hk3
        have hi4 : (p.idxAddr + UInt32.ofNat i * 4).toNat
            = p.idxAddr.toNat + i * 4 := by
          rw [UInt32.toNat_add, UInt32.toNat_mul, toNat_ofNat_lt hi,
            show (4 : UInt32).toNat = 4 from rfl,
            Nat.mod_eq_of_lt (a := i * 4) (by omega), Nat.mod_eq_of_lt hidx]
        refine ⟨("idx", [(p.idxAddr.toNat, p.idxAddr.toNat + p.rows.toNat * 4)]),
          List.mem_append_right _ ?_, ?_⟩
        · rw [if_pos hk3]
          exact List.mem_singleton.mpr rfl
        · rw [Loc.addr_sram, hi4]
          exact ⟨_, List.mem_singleton.mpr rfl, by omega, by omega⟩
  | sync => exact absurd hl (by simp [EasmInsn.writes])

/-- No conflict for the checker is no conflict for the executor. -/
theorem independent_of_noConflict {x y : EasmInsn} (hwx : NoWrap x)
    (hwy : NoWrap y) (hsx : StrideForm x) (hsy : StrideForm y)
    (h : NoConflict (parseInstruction x) (parseInstruction y)) :
    Independent EasmInsn.reads EasmInsn.writes x y := by
  refine ⟨fun l hx hy => ?_, fun l hy hx => ?_, fun l hx hy => ?_⟩
  · obtain ⟨w, hw, hcw⟩ := writes_covered hwx hx
    obtain ⟨r, hr, hcr⟩ := reads_covered hwy hsy hy
    exact absurd (rangesOverlap_of_covers hcr hcw) (by simp [h.raw w hw r hr])
  · obtain ⟨w, hw, hcw⟩ := writes_covered hwy hy
    obtain ⟨r, hr, hcr⟩ := reads_covered hwx hsx hx
    exact absurd (rangesOverlap_of_covers hcw hcr) (by simp [h.war r hr w hw])
  · obtain ⟨w, hw, hcw⟩ := writes_covered hwx hx
    obtain ⟨v, hv, hcv⟩ := writes_covered hwy hy
    exact absurd (rangesOverlap_of_covers hcv hcw) (by simp [h.waw w hw v hv])

/-! ## Order independence -/

/-- Permutations of a stream inside its SYNC-delimited segments. -/
abbrev SegmentReorder : List EasmInsn → List EasmInsn → Prop :=
  Reorder fun x => x.isSync = true

theorem SegmentReorder.perm {xs ys : List EasmInsn} (h : SegmentReorder xs ys) :
    xs.Perm ys := by
  induction h with
  | last hp _ => exact hp
  | seg hp _ _ _ ih => exact hp.append (ih.cons _)

/-- The streams the result is about: the compiler's broadcast strides, no
wrapping address, no store into a descriptor slot. -/
structure WellPlaced (xs : List EasmInsn) : Prop where
  stride : ∀ x ∈ xs, StrideForm x
  noWrap : ∀ x ∈ xs, NoWrap x
  stores : ∀ x ∈ xs, ∀ y ∈ xs, StoreAvoids x y

variable {F : Type} [Fp32 F]

/-- The queue alone, on a memory whose slots hold their own descriptors. -/
theorem runStream_reorder {xs ys : List EasmInsn} {s s' : CModel}
    (hxs : WellPlaced xs) (hslot : ∀ x ∈ xs, SlotInDdr x)
    (hown : ∀ x ∈ xs, OwnDesc x s) (hclean : hazardCheck xs = [])
    (hre : SegmentReorder xs ys) (hrun : runStream F xs s = .ok s') :
    runStream F ys s = .ok s' := by
  have hmem : ∀ y ∈ ys, y ∈ xs := fun y hy => hre.perm.mem_iff.mpr hy
  rw [runStream_eq hslot hown hxs.stores] at hrun
  rw [runStream_eq (fun y hy => hslot y (hmem y hy))
    (fun y hy => hown y (hmem y hy))
    fun y hy z hz => hxs.stores y (hmem y hy) z (hmem z hz)]
  refine runAll_reorder (runInsn F) EasmInsn.reads EasmInsn.writes hre
    (fun x _ => runInsn_footprint x) ?_ hrun
  intro pre seg post heq hseg
  have hsub : ∀ x ∈ seg, x ∈ xs := fun x hx => by rw [heq]; simp [hx]
  have hpair := hazardCheck_pairwise hclean heq (by simpa using hseg)
  refine List.Pairwise.imp_of_mem ?_ hpair
  intro x y hx hy hxy
  exact independent_of_noConflict (hxs.noWrap x (hsub x hx))
    (hxs.noWrap y (hsub y hy)) (hxs.stride x (hsub x hx))
    (hxs.stride y (hsub y hy)) hxy

/-- **Hazard-free means order-independent.** If every slot holds its own
descriptor once the descriptors are written, the checker finds no hazard
and the stream runs to the end, then every reordering inside the SYNC
segments runs to the same end. -/
theorem runEasm_reorder {xs ys : List EasmInsn} {s s₀ s' : CModel}
    (hxs : WellPlaced xs) (hload : loadDescs xs s = .ok s₀)
    (hown : ∀ x ∈ xs, OwnDesc x s₀) (hclean : hazardCheck xs = [])
    (hrun : runEasm F xs s = .ok s') (hre : SegmentReorder xs ys) :
    runEasm F ys s = .ok s' := by
  have hmem : ∀ y ∈ ys, y ∈ xs := fun y hy => hre.perm.mem_iff.mpr hy
  obtain ⟨hslot, hframe⟩ := loadDescs_ok hload
  have hload' : loadDescs ys s = .ok s₀ :=
    loadDescs_eq (fun y hy => hslot y (hmem y hy))
      (fun y hy => hown y (hmem y hy)) fun l hl =>
        (hframe l fun x hx => hl x (hre.perm.mem_iff.mp hx)).symm
  rw [runEasm, hload, ok_bind] at hrun
  rw [runEasm, hload', ok_bind]
  exact runStream_reorder hxs hslot hown hclean hre hrun

/-- Whether a run ended, and with which byte at `l`. -/
def endsWith (r : Except Fault CModel) (l : Loc) : Option UInt8 :=
  match r with
  | .ok s => some (s l)
  | .error _ => none

/-- A one-row, one-element DMA. -/
def dmaCell (sramAddr ddrAddr : UInt32) : DMAParam :=
  ⟨sramAddr, ddrAddr, 1, 1, 2, 2⟩

/-- Two loads that may be exchanged. -/
def twoLoads : List EasmInsn :=
  [.dmaLoad 0x40000100 (dmaCell 0x10000000 0x40010000),
    .dmaLoad 0x40000140 (dmaCell 0x10000010 0x40020000)]

theorem noWrap_dmaCell {d a b : UInt32} (ha : b.toNat < 4294967296)
    (hb : a.toNat < 4294967296) :
    NoWrap (.dmaLoad d (dmaCell a b)) ∧ NoWrap (.dmaStore d (dmaCell a b)) := by
  refine ⟨fun i hi => ?_, fun i hi => ?_⟩
  all_goals
    have : i < 1 := hi
    obtain rfl : i = 0 := by omega
    simp only [Nat.zero_mul, Nat.add_zero]
    exact ⟨by assumption, by assumption⟩

/-- A load writes no DDR byte. -/
theorem storeAvoids_dmaLoad (d : UInt32) (p : DMAParam) (y : EasmInsn) :
    StoreAvoids (.dmaLoad d p) y := by
  rintro a ⟨i, _, j, _, h⟩
  cases h

theorem wellPlaced_twoLoads : WellPlaced twoLoads := by
  refine ⟨?_, ?_, ?_⟩
  · simp [twoLoads, StrideForm]
  · simp only [twoLoads, List.forall_mem_cons]
    exact ⟨(noWrap_dmaCell (by decide) (by decide)).1,
      (noWrap_dmaCell (by decide) (by decide)).1, by simp⟩
  · intro x hx y _
    simp only [twoLoads, List.mem_cons, List.not_mem_nil, or_false] at hx
    rcases hx with rfl | rfl <;> exact storeAvoids_dmaLoad _ _ _

theorem runEasm_reorder_twoLoads : ∃ s' : CModel,
    @runEasm Int Fp32.integers twoLoads (fun _ => 0) = .ok s'
      ∧ @runEasm Int Fp32.integers twoLoads.reverse (fun _ => 0) = .ok s' := by
  have hok : (@runEasm Int Fp32.integers twoLoads fun _ => 0).isOk = true := by
    decide +kernel
  cases hrun : @runEasm Int Fp32.integers twoLoads fun _ => 0 with
  | error e => rw [hrun] at hok; cases hok
  | ok s' =>
      obtain ⟨s₀, hload, -⟩ := bind_ok hrun
      refine ⟨s', rfl, @runEasm_reorder Int Fp32.integers _ _ _ _ _
        wellPlaced_twoLoads hload (loadDescs_ownDesc ?_ hload) (by decide) hrun
        (.last (List.reverse_perm _).symm (by simp [twoLoads, EasmInsn.isSync]))⟩
      simp only [twoLoads, List.pairwise_cons, List.forall_mem_cons, InSlot,
        EasmInsn.desc, EasmInsn.descBytes, DMAParam.bytes_length]
      refine ⟨⟨fun a ha => ?_, by simp⟩, by simp, by simp⟩
      have h1 : (0x40000100 : UInt32).toNat = 0x40000100 := rfl
      have h2 : (0x40000140 : UInt32).toNat = 0x40000140 := rfl
      omega

/-! ### Why the slots must hold their own descriptors

The first load and the store share the slot `0x40000100`. Every descriptor
is written before the queue runs, so the load executes the fields of the
store: it fills the SRAM cell the second load fills too. -/

def sharedSlot : List EasmInsn :=
  [.dmaLoad 0x40000100 (dmaCell 0x10000000 0x40010000),
    .dmaLoad 0x40000140 (dmaCell 0x10000010 0x40020000),
    .sync,
    .dmaStore 0x40000100 (dmaCell 0x10000010 0x40010000)]

def sharedSlotSwapped : List EasmInsn :=
  [.dmaLoad 0x40000140 (dmaCell 0x10000010 0x40020000),
    .dmaLoad 0x40000100 (dmaCell 0x10000000 0x40010000),
    .sync,
    .dmaStore 0x40000100 (dmaCell 0x10000010 0x40010000)]

/-- All zeroes but for the byte at `0x40010000`. -/
def oneByte : CModel := fun l => if l = .ddr 0x40010000 then 1 else 0

theorem wellPlaced_sharedSlot : WellPlaced sharedSlot := by
  refine ⟨?_, ?_, ?_⟩
  · simp [sharedSlot, StrideForm]
  · simp only [sharedSlot, List.forall_mem_cons]
    exact ⟨(noWrap_dmaCell (by decide) (by decide)).1,
      (noWrap_dmaCell (by decide) (by decide)).1, trivial,
      (noWrap_dmaCell (by decide) (by decide)).2, by simp⟩
  · have hlow : ∀ y ∈ sharedSlot,
        y.desc.toNat + y.descBytes.length ≤ 0x40010000 := by decide
    intro x hx y hy
    simp only [sharedSlot, List.mem_cons, List.not_mem_nil, or_false] at hx
    rcases hx with rfl | rfl | rfl | rfl
    · exact storeAvoids_dmaLoad _ _ _
    · exact storeAvoids_dmaLoad _ _ _
    · exact fun a ha => absurd ha (by simp [EasmInsn.writes])
    · -- the store starts above every slot
      rintro a ⟨i, hi, j, _, h⟩ ha
      have hi1 : i < 1 := hi
      obtain rfl : i = 0 := by omega
      obtain rfl : a = 0x40010000 + j := by cases h; rfl
      have := hlow y hy
      unfold InSlot at ha
      omega

/-- **Sharing a slot breaks order independence**, with every other
condition met. -/
theorem reorder_needs_ownDesc :
    ¬ ∀ (xs ys : List EasmInsn) (s s' : CModel), WellPlaced xs →
      hazardCheck xs = [] → @runEasm Int Fp32.integers xs s = .ok s' →
      SegmentReorder xs ys → @runEasm Int Fp32.integers ys s = .ok s' := by
  intro h
  have hx : endsWith (@runEasm Int Fp32.integers sharedSlot oneByte)
      (.sram 0x10000010) = some 0 := by decide +kernel
  have hy : endsWith (@runEasm Int Fp32.integers sharedSlotSwapped oneByte)
      (.sram 0x10000010) = some 1 := by decide +kernel
  have hre : SegmentReorder sharedSlot sharedSlotSwapped :=
    .seg (.swap _ _ []) (by simp [EasmInsn.isSync]) rfl
      (.last (.refl _) (by simp [EasmInsn.isSync]))
  cases hrun : @runEasm Int Fp32.integers sharedSlot oneByte with
  | error e => rw [hrun] at hx; cases hx
  | ok s' =>
      have hsame := h _ _ _ s' wellPlaced_sharedSlot (by decide) hrun hre
      rw [hrun] at hx
      rw [hsame] at hy
      exact absurd (hx.symm.trans hy) (by decide)

end EclipseNpu.Tools

import EclipseNpu.Tools.OrderIndependence

/-!
# Tools — FootprintCoverage

Whether the checker's intervals contain what the executor touches, for all
field values. They do for every opcode but ELEMENTWISE, where the checker
takes the rhs for packed: it counts `rhsBlk` elements per row and looks at
`rhsStride` only to see whether it is zero. `coverage_iff` says when that is
enough.
-/

namespace EclipseNpu.Tools

open EclipseNpu.Lib EclipseNpu.Runtime

/-! ## Covered instructions -/

/-- **The intervals of an instruction contain its data accesses.** -/
def FootprintCovered (x : EasmInsn) : Prop :=
  (∀ l ∈ x.reads, CoveredBy (parseInstruction x).reads l.addr)
    ∧ ∀ l ∈ x.writes, CoveredBy (parseInstruction x).writes l.addr

/-- How many elements of its rhs row output row `r` reads. All rows but the
last one are whole; `rows * cols` is a 32-bit product. -/
def rhsWidth (p : EwiseParam) (r : Nat) : Nat :=
  min p.rhsBlk.toNat ((p.rows * p.cols).toNat - r * p.cols.toNat)

/-- The rhs row of output row `r` ends within the `rhsBlk * rows` elements the
checker counts, or what sticks out lies within the lhs. -/
def RhsRowSeen (p : EwiseParam) (r : Nat) : Prop :=
  r * p.rhsStride.toNat + rhsWidth p r ≤ p.rhsBlk.toNat * p.rows.toNat
    ∨ (p.lhsAddr.toNat ≤ p.rhsAddr.toNat
          + 2 * max (r * p.rhsStride.toNat) (p.rhsBlk.toNat * p.rows.toNat)
        ∧ p.rhsAddr.toNat + 2 * (r * p.rhsStride.toNat + rhsWidth p r)
          ≤ p.lhsAddr.toNat + 2 * (p.rows.toNat * p.cols.toNat))

/-- The condition on the fields: only the rhs of ELEMENTWISE has one. -/
def RhsSeen : EasmInsn → Prop
  | .elementwise _ _ p => p.rhsStride = 0
      ∨ ∀ r, r * p.cols.toNat < (p.rows * p.cols).toNat → RhsRowSeen p r
  | _ => True

/-- Strides of at most one block are seen, so the compiler's are. -/
theorem rhsSeen_of_stride_le {op : EwiseOp} {d : UInt32} {p : EwiseParam}
    (h : p.rhsStride.toNat ≤ p.rhsBlk.toNat) : RhsSeen (.elementwise op d p) := by
  refine .inr fun r hr => .inl ?_
  have hrow : r < p.rows.toNat := by
    rw [UInt32.toNat_mul] at hr
    have hlt := Nat.lt_of_lt_of_le hr (Nat.mod_le _ _)
    exact Nat.lt_of_mul_lt_mul_right hlt
  have hwidth : rhsWidth p r ≤ p.rhsBlk.toNat := Nat.min_le_left _ _
  calc r * p.rhsStride.toNat + rhsWidth p r
      ≤ r * p.rhsBlk.toNat + p.rhsBlk.toNat :=
        Nat.add_le_add (Nat.mul_le_mul_left r h) hwidth
    _ = (r + 1) * p.rhsBlk.toNat := by rw [Nat.succ_mul]
    _ ≤ p.rows.toNat * p.rhsBlk.toNat := Nat.mul_le_mul_right _ hrow
    _ = p.rhsBlk.toNat * p.rows.toNat := Nat.mul_comm _ _

/-! ## The rhs of ELEMENTWISE -/

section Rhs

variable {p : EwiseParam}

/-- Both bytes of the rhs element with flat index `o` are seen: within the
counted elements, or within the lhs. -/
def RhsElemSeen (p : EwiseParam) (o : Nat) : Prop :=
  o < p.rhsBlk.toNat * p.rows.toNat
    ∨ (p.lhsAddr.toNat ≤ p.rhsAddr.toNat + 2 * o
      ∧ p.rhsAddr.toNat + 2 * o + 2
        ≤ p.lhsAddr.toNat + 2 * (p.rows.toNat * p.cols.toNat))

/-- The elements of one row, all at once. -/
theorem rhsRowSeen_iff {r : Nat} (hw : 0 < rhsWidth p r) :
    RhsRowSeen p r ↔ ∀ c < rhsWidth p r, RhsElemSeen p (r * p.rhsStride.toNat + c) := by
  unfold RhsRowSeen RhsElemSeen
  generalize r * p.rhsStride.toNat = o
  generalize p.rhsBlk.toNat * p.rows.toNat = n
  generalize p.rows.toNat * p.cols.toNat = m
  generalize rhsWidth p r = w at hw ⊢
  constructor
  · rintro (h | ⟨hlo, hhi⟩) c hc
    · exact .inl (by omega)
    · by_cases hn : o + c < n
      · exact .inl hn
      · exact .inr ⟨by omega, by omega⟩
  · intro h
    by_cases hn : o + w ≤ n
    · exact .inl hn
    · -- the first element past the count, and the last one
      have hfirst := h (max o n - o) (by omega)
      have hlast := h (w - 1) (by omega)
      exact .inr ⟨by omega, by omega⟩

/-- The flat indices of the rhs elements, row by row. -/
theorem ewiseRhsIndex_row {i : Nat} (hblk : p.rhsBlk.toNat ≠ 0)
    (hdvd : p.rhsBlk.toNat ∣ p.cols.toNat) (hi : i < (p.rows * p.cols).toNat) :
    i / p.cols.toNat * p.cols.toNat < (p.rows * p.cols).toNat
      ∧ i % p.rhsBlk.toNat < rhsWidth p (i / p.cols.toNat) := by
  have hle := Nat.div_mul_le_self i p.cols.toNat
  have hmod : i % p.rhsBlk.toNat ≤ i % p.cols.toNat := by
    rw [← Nat.mod_mod_of_dvd i hdvd]
    exact Nat.mod_le _ _
  have hsplit := Nat.div_add_mod' i p.cols.toNat
  have hlt : i % p.rhsBlk.toNat < p.rhsBlk.toNat :=
    Nat.mod_lt _ (Nat.pos_of_ne_zero hblk)
  unfold rhsWidth
  omega

/-- Every element of a row is the one of some output element. -/
theorem exists_ewiseRhsIndex {r c : Nat} (hcols : p.cols.toNat ≠ 0)
    (hdvd : p.rhsBlk.toNat ∣ p.cols.toNat) (hc : c < rhsWidth p r) :
    ∃ i < (p.rows * p.cols).toNat,
      ewiseRhsIndex p i = r * p.rhsStride.toNat + c := by
  unfold rhsWidth at hc
  have hblk : c < p.rhsBlk.toNat := by omega
  have hle := Nat.le_of_dvd (Nat.pos_of_ne_zero hcols) hdvd
  refine ⟨r * p.cols.toNat + c, by omega, ?_⟩
  have hdiv : (r * p.cols.toNat + c) / p.cols.toNat = r := flat_div (by omega)
  have hmod : (r * p.cols.toNat + c) % p.rhsBlk.toNat = c := by
    obtain ⟨k, hk⟩ := hdvd
    rw [hk, Nat.mul_left_comm, Nat.mul_add_mod, Nat.mod_eq_of_lt hblk]
  rw [ewiseRhsIndex, hdiv, hmod]

/-- **All elements at once**: seen exactly when every row is. -/
theorem rhsElems_seen_iff (hcols : p.cols.toNat ≠ 0) (hblk : p.rhsBlk.toNat ≠ 0)
    (hdvd : p.rhsBlk.toNat ∣ p.cols.toNat) :
    (∀ i < (p.rows * p.cols).toNat, RhsElemSeen p (ewiseRhsIndex p i))
      ↔ ∀ r, r * p.cols.toNat < (p.rows * p.cols).toNat → RhsRowSeen p r := by
  constructor
  · intro h r hr
    refine (rhsRowSeen_iff (by unfold rhsWidth; omega)).mpr fun c hc => ?_
    obtain ⟨i, hi, hidx⟩ := exists_ewiseRhsIndex hcols hdvd hc
    exact hidx ▸ h i hi
  · intro h i hi
    obtain ⟨hr, hc⟩ := ewiseRhsIndex_row hblk hdvd hi
    exact (rhsRowSeen_iff (by omega)).mp (h _ hr) _ hc

end Rhs

/-! ## One instruction -/

/-- The three intervals of ELEMENTWISE, for a stride other than zero. -/
theorem coveredBy_ewise_iff {op : EwiseOp} {d : UInt32} {p : EwiseParam}
    (hs : p.rhsStride ≠ 0) {a : Nat} :
    CoveredBy (parseInstruction (.elementwise op d p)).reads a
      ↔ (p.lhsAddr.toNat ≤ a
          ∧ a < p.lhsAddr.toNat + p.rows.toNat * p.cols.toNat * 2)
        ∨ (p.rhsAddr.toNat ≤ a
          ∧ a < p.rhsAddr.toNat + p.rhsBlk.toNat * p.rows.toNat * 2) := by
  simp only [parseInstruction, if_pos hs, CoveredBy, Covers, flatRange,
    List.mem_cons, List.not_mem_nil, or_false, exists_eq_or_imp, exists_eq_left]

section Insn

variable {F : Type} [Fp32 F] {x : EasmInsn} {s s' : CModel}

/-- What the assertions of ELEMENTWISE leave. -/
theorem elementwise_fields {op : EwiseOp} {p : EwiseParam}
    (h : elementwise F p op s = .ok s') :
    p.cols.toNat ≠ 0 ∧ p.rhsBlk.toNat ≠ 0 ∧ p.rhsBlk.toNat ∣ p.cols.toNat := by
  obtain ⟨_, hne, h⟩ := bind_ok h
  obtain ⟨_, hdvd, -⟩ := bind_ok h
  have hne := assert_ok_iff.mp hne
  have hdvd := assert_ok_iff.mp hdvd
  simp only [Bool.and_eq_true, bne_iff_ne, ne_eq, beq_iff_eq] at hne hdvd
  refine ⟨fun hz => hne.1 (UInt32.toNat_inj.mp hz),
    fun hz => hne.2 (UInt32.toNat_inj.mp hz), Nat.dvd_of_mod_eq_zero ?_⟩
  rw [← UInt32.toNat_mod, hdvd, UInt32.toNat_zero]

/-- **ELEMENTWISE** is covered exactly when its rhs is seen. -/
theorem ewise_covered_iff {op : EwiseOp} {d : UInt32} {p : EwiseParam}
    (h : elementwise F p op s = .ok s') (hw : NoWrap (.elementwise op d p)) :
    FootprintCovered (.elementwise op d p) ↔ RhsSeen (.elementwise op d p) := by
  obtain ⟨hcols, hblk, hdvd⟩ := elementwise_fields h
  have hguard : p.cols ≠ 0 ∧ p.rhsBlk ≠ 0 :=
    ⟨fun hz => hcols (by rw [hz, UInt32.toNat_zero]),
      fun hz => hblk (by rw [hz, UInt32.toNat_zero])⟩
  by_cases hs : p.rhsStride = 0
  · exact ⟨fun _ => .inl hs, fun _ => ⟨fun l => reads_covered hw (.inl hs),
      fun l => writes_covered hw⟩⟩
  have haddr : ∀ i < (p.rows * p.cols).toNat,
      (p.rhsElem i).toNat = p.rhsAddr.toNat + ewiseRhsIndex p i * 2 := fun i hi =>
    toNat_ewiseRhsElem (toNat_ofNat_lt hi) (hw i hi).2.1
  have hseen : RhsSeen (.elementwise op d p)
      ↔ ∀ i < (p.rows * p.cols).toNat, RhsElemSeen p (ewiseRhsIndex p i) :=
    ⟨fun hrows => (rhsElems_seen_iff hcols hblk hdvd).mpr (hrows.resolve_left hs),
      fun helems => .inr ((rhsElems_seen_iff hcols hblk hdvd).mp helems)⟩
  rw [hseen]
  constructor
  · intro hcov i hi
    have hread := fun (b : Loc) hb =>
      hcov.1 b ⟨hguard, i, hi, .inr hb⟩
    have h0 := (coveredBy_ewise_iff hs).mp
      (hread (.sram (p.rhsElem i).toNat) (.inl rfl))
    have h1 := (coveredBy_ewise_iff hs).mp
      (hread (.sram ((p.rhsElem i).toNat + 1)) (.inr rfl))
    simp only [Loc.addr_sram, haddr i hi] at h0 h1
    unfold RhsElemSeen
    generalize p.rows.toNat * p.cols.toNat = m at h0 h1 ⊢
    generalize p.rhsBlk.toNat * p.rows.toNat = n at h0 h1 ⊢
    omega
  · refine fun helems => ⟨fun l hl => ?_, fun l => writes_covered hw⟩
    obtain ⟨-, i, hi, hl | hl⟩ := hl
    · exact ⟨_, List.mem_cons_self .., covers_elem
        (toNat_packedElem (hw i hi).1) (ewise_bound hi) hl⟩
    · have h0 := helems i hi
      rw [coveredBy_ewise_iff hs]
      unfold RhsElemSeen at h0
      generalize p.rows.toNat * p.cols.toNat = m at h0 ⊢
      generalize p.rhsBlk.toNat * p.rows.toNat = n at h0 ⊢
      rcases hl with rfl | rfl
      · rw [Loc.addr_sram, haddr i hi]
        omega
      · rw [Loc.addr_sram, haddr i hi]
        omega

/-- An instruction that finishes has its descriptor inside DDR. -/
theorem slotInDdr_of_exec (h : exec F x.toInstruction s = .ok s') : SlotInDdr x := by
  intro hx
  have hslot : ∀ {α : Type} {load : (Nat → UInt8) → Nat → α} {n : Nat} {p : α},
      readDesc load n x.desc s = .ok p → n = x.descBytes.length →
      DDR_ADDR.toNat ≤ x.desc.toNat ∧ x.desc.toNat + x.descBytes.length ≤ ddrEnd := by
    intro α load n p hread hn
    obtain ⟨⟨hlo, hhi, hsp⟩, -⟩ := readDesc_ok_iff.mp hread
    have hpos := descBytes_length_pos hx
    rw [DDR_ADDR_toNat]
    omega
  cases x with
  | dmaLoad d p =>
      obtain ⟨_, hread, -⟩ := bind_ok h
      exact hslot hread (DMAParam.bytes_length p).symm
  | dmaStore d p =>
      obtain ⟨_, hread, -⟩ := bind_ok h
      exact hslot hread (DMAParam.bytes_length p).symm
  | matmul d p =>
      obtain ⟨_, hread, -⟩ := bind_ok h
      exact hslot hread (MatmulParam.bytes_length p).symm
  | elementwise op d p =>
      have hexec : execElementwise F d op s = .ok s' := by cases op <;> exact h
      obtain ⟨_, hread, -⟩ := bind_ok hexec
      exact hslot hread (EwiseParam.bytes_length p).symm
  | act d p =>
      obtain ⟨_, hread, -⟩ := bind_ok h
      exact hslot hread (ActParam.bytes_length p).symm
  | reduce d p =>
      obtain ⟨_, hread, -⟩ := bind_ok h
      exact hslot hread (ReduceParam.bytes_length p).symm
  | sync => cases hx

/-- **When the checker sees every access.** An instruction whose slot holds
its fields and that does not store over them runs to completion on addresses
that do not wrap: its intervals contain its accesses exactly when the rhs of
ELEMENTWISE is seen. -/
theorem coverage_iff (hown : OwnDesc x s) (hkeep : StoreAvoids x x)
    (hrun : exec F x.toInstruction s = .ok s') (hw : NoWrap x) :
    FootprintCovered x ↔ RhsSeen x := by
  have hinsn : runInsn F x s = .ok s' := by
    rw [← exec_toInstruction (slotInDdr_of_exec hrun) hown hkeep]
    exact hrun
  cases x with
  | elementwise op d p => exact ewise_covered_iff hinsn hw
  | _ =>
      exact ⟨fun _ => trivial, fun _ => ⟨fun l => reads_covered hw trivial,
        fun l => writes_covered hw⟩⟩

end Insn

/-! ## A strided rhs -/

/-- Two rows of one element, the rhs rows `stride` elements apart. -/
def stridedParam (stride : UInt32) : EwiseParam :=
  { dstAddr := 0x10002000, lhsAddr := 0x10000000, rhsAddr := 0x10001000
    rows := 2, cols := 1, rhsBlk := 1, rhsStride := stride }

def stridedAdd (stride : UInt32) : EasmInsn :=
  .elementwise .add 0x40000100 (stridedParam stride)

theorem noWrap_stridedAdd {stride : UInt32} (h : stride.toNat ≤ 4) :
    NoWrap (stridedAdd stride) := by
  intro i hi
  replace hi : i < 2 := hi
  have hidx : ewiseRhsIndex (stridedParam stride) i = i * stride.toNat := by
    simp [ewiseRhsIndex, stridedParam, Nat.mod_one]
  have hle : i * stride.toNat ≤ 1 * 4 := Nat.mul_le_mul (by omega) h
  rw [hidx]
  simp only [stridedParam, UInt32.reduceToNat]
  omega

theorem coverage_iff_stridedAdd : FootprintCovered (stridedAdd 1) := by
  have hrun : outcome (@exec Int Fp32.integers (stridedAdd 1).toInstruction
      (withDesc (stridedAdd 1))) = none := by decide +kernel
  obtain ⟨s', h⟩ := exists_of_outcome hrun
  exact (@coverage_iff Int Fp32.integers _ _ _ (ownDesc_withDesc _)
    (StoreAvoids.of_notStore (by simp [stridedAdd])) h
    (noWrap_stridedAdd (by decide))).mpr (rhsSeen_of_stride_le (by decide))

/-- **A wide stride is not seen**: with rows four elements apart the second
rhs element lies eight bytes past the start of an interval of four. -/
theorem strided_rhs_uncovered :
    ¬ ∀ (x : EasmInsn) (s s' : CModel), OwnDesc x s →
      @exec Int Fp32.integers x.toInstruction s = .ok s' → NoWrap x →
      FootprintCovered x := by
  intro h
  have hrun : outcome (@exec Int Fp32.integers (stridedAdd 4).toInstruction
      (withDesc (stridedAdd 4))) = none := by decide +kernel
  obtain ⟨s', hs⟩ := exists_of_outcome hrun
  have hcov := h _ _ s' (ownDesc_withDesc _) hs (noWrap_stridedAdd (by decide))
  have hread : Loc.sram 0x10001008 ∈ (stridedAdd 4).reads :=
    ⟨⟨by decide, by decide⟩, 1, by decide, .inr (.inl rfl)⟩
  have hin := (coveredBy_ewise_iff (by decide)).mp (hcov.1 _ hread)
  revert hin
  decide

end EclipseNpu.Tools

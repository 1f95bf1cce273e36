import EclipseNpu.Runtime.Cycles

/-!
# Runtime — ReduceCycles

The cycle model of REDUCE (`cyclesReduce`) against the published one. The
element-wise part should be charged per row; the code charges it for all rows
at once, so the beats left over at the ends of rows are shared
(`cyclesReduce_published_iff`).
-/

namespace EclipseNpu.Runtime

open EclipseNpu.Lib

def ELEM_PER_CYCLE : UInt32 := 128
def ARGMAX_ELEM_PER_CYCLE : UInt32 := ELEM_PER_CYCLE / 2
def REDUCE_TREE_STEPS : UInt32 := 7

/-- `elemPerCycle`. -/
def ReduceParam.elemPerCycle (desc : ReduceParam) : UInt32 :=
  if desc.kind = ReduceKind.ARGMAX.toU32 then ARGMAX_ELEM_PER_CYCLE else ELEM_PER_CYCLE

def cyclesReduce (s : CModel) (descPtr : UInt32) : Except Fault UInt64 := do
  let desc ← readDesc ReduceParam.load 24 descPtr s
  return ceilDiv (desc.rows.toUInt64 * desc.cols.toUInt64) desc.elemPerCycle.toUInt64
    + desc.rows.toUInt64 * REDUCE_TREE_STEPS.toUInt64

/-! ## The published model -/

namespace ReduceParam

variable (desc : ReduceParam)

/-- `rows * ceil(cols / E) + rows * LOG2(ELEM_PER_CYCLE)`. -/
def published : Nat :=
  desc.rows.toNat * ((desc.cols.toNat + (desc.elemPerCycle.toNat - 1))
      / desc.elemPerCycle.toNat) + desc.rows.toNat * 7

/-- The lanes the last beat of a row leaves empty. -/
def emptyLanes : Nat :=
  (desc.elemPerCycle.toNat - desc.cols.toNat % desc.elemPerCycle.toNat)
    % desc.elemPerCycle.toNat

variable {desc}

theorem elemPerCycle_cases :
    desc.elemPerCycle.toNat = 64 ∨ desc.elemPerCycle.toNat = 128 := by
  unfold elemPerCycle
  split
  · exact .inl rfl
  · exact .inr rfl

/-- A row fills its beats together with the empty lanes. -/
theorem beats_mul : (desc.cols.toNat + (desc.elemPerCycle.toNat - 1))
      / desc.elemPerCycle.toNat * desc.elemPerCycle.toNat
    = desc.cols.toNat + desc.emptyLanes := by
  unfold emptyLanes
  rcases @elemPerCycle_cases desc with h | h
  · rw [h]
    omega
  · rw [h]
    omega

/-- **The rows share a beat** unless all empty lanes together are fewer than a
beat has. -/
theorem ceil_rows_iff :
    (desc.rows.toNat * desc.cols.toNat + (desc.elemPerCycle.toNat - 1))
        / desc.elemPerCycle.toNat
      = desc.rows.toNat * ((desc.cols.toNat + (desc.elemPerCycle.toNat - 1))
        / desc.elemPerCycle.toNat)
      ↔ desc.rows.toNat * desc.emptyLanes < desc.elemPerCycle.toNat := by
  have hbeats := @beats_mul desc
  have hpos : 0 < desc.elemPerCycle.toNat := by
    rcases @elemPerCycle_cases desc with h | h <;> omega
  generalize (desc.cols.toNat + (desc.elemPerCycle.toNat - 1)) / desc.elemPerCycle.toNat
    = k at hbeats ⊢
  have hrows : desc.rows.toNat * k * desc.elemPerCycle.toNat
      = desc.rows.toNat * desc.cols.toNat + desc.rows.toNat * desc.emptyLanes := by
    rw [Nat.mul_assoc, hbeats, Nat.mul_add]
  generalize desc.rows.toNat * k = m at hrows ⊢
  rw [Nat.div_eq_iff hpos]
  omega

end ReduceParam

/-- The number of cycles, without wrapping. -/
theorem cyclesReduce_eq {desc : ReduceParam} {s : CModel} {descPtr : UInt32}
    (hread : readDesc ReduceParam.load 24 descPtr s = .ok desc) :
    ∃ n : UInt64, cyclesReduce s descPtr = .ok n
      ∧ n.toNat = (desc.rows.toNat * desc.cols.toNat + (desc.elemPerCycle.toNat - 1))
        / desc.elemPerCycle.toNat + desc.rows.toNat * 7 := by
  have hrows := desc.rows.toNat_lt
  have hcols := desc.cols.toNat_lt
  have hmul := Nat.mul_le_mul (show desc.rows.toNat ≤ 4294967295 by omega)
    (show desc.cols.toNat ≤ 4294967295 by omega)
  refine ⟨_, by rw [cyclesReduce, hread]; rfl, ?_⟩
  have hprod : (desc.rows.toUInt64 * desc.cols.toUInt64).toNat
      = desc.rows.toNat * desc.cols.toNat := by
    rw [UInt64.toNat_mul, UInt32.toNat_toUInt64, UInt32.toNat_toUInt64]
    exact Nat.mod_eq_of_lt (by omega)
  have hsteps : (desc.rows.toUInt64 * REDUCE_TREE_STEPS.toUInt64).toNat
      = desc.rows.toNat * 7 := by
    rw [UInt64.toNat_mul, UInt32.toNat_toUInt64]
    exact Nat.mod_eq_of_lt (show desc.rows.toNat * 7 < 2 ^ 64 by omega)
  rw [UInt64.toNat_add, ceilDiv, UInt64.toNat_div, UInt64.toNat_sub, UInt64.toNat_add,
    hprod, hsteps, UInt32.toNat_toUInt64]
  generalize desc.rows.toNat * desc.cols.toNat = n at hmul ⊢
  show ((18446744073709551616 - 1 + (n + _) % 18446744073709551616)
    % 18446744073709551616 / _ + _) % 18446744073709551616 = _
  rcases desc.elemPerCycle_cases with h | h
  · rw [h]
    omega
  · rw [h]
    omega

/-- **When `cyclesReduce` returns the published number**: the empty lanes of all
rows together fit into one beat. -/
theorem cyclesReduce_published_iff {desc : ReduceParam} {s : CModel} {descPtr : UInt32}
    (hread : readDesc ReduceParam.load 24 descPtr s = .ok desc) :
    (∃ n : UInt64, cyclesReduce s descPtr = .ok n ∧ n.toNat = desc.published)
      ↔ desc.rows.toNat * desc.emptyLanes < desc.elemPerCycle.toNat := by
  obtain ⟨n, hrun, hn⟩ := cyclesReduce_eq hread
  rw [← ReduceParam.ceil_rows_iff]
  constructor
  · rintro ⟨m, hm, hpub⟩
    rw [hrun] at hm
    cases hm
    rw [ReduceParam.published, hn] at hpub
    omega
  · intro h
    refine ⟨n, hrun, ?_⟩
    rw [hn, h, ReduceParam.published]

/-- MAX over `rows` rows of `cols` elements. -/
def reduceMaxParam (rows cols : UInt32) : ReduceParam :=
  { dstAddr := 0x10000000, idxAddr := 0, srcAddr := 0x10001000, rows := rows
    cols := cols, kind := ReduceKind.MAX.toU32 }

/-- The descriptor at the start of the queue. -/
def reduceMaxState (rows cols : UInt32) : CModel :=
  CModel.storeDdr (fun _ => 0) 0x40000100 (reduceMaxParam rows cols).bytes

theorem readDesc_reduceMaxState (rows cols : UInt32) :
    readDesc ReduceParam.load 24 0x40000100 (reduceMaxState rows cols)
      = .ok (reduceMaxParam rows cols) :=
  readDesc_ok_iff.mpr ⟨by decide, (ReduceParam.load_bytes (storeDdr_holds _ _ _)).symm⟩

theorem cyclesReduce_published_iff_rows :
    ∃ n : UInt64, cyclesReduce (reduceMaxState 2 100) 0x40000100 = .ok n
      ∧ n.toNat = (reduceMaxParam 2 100).published :=
  (cyclesReduce_published_iff (readDesc_reduceMaxState 2 100)).mpr (by decide)

/-- Two rows of one element share a beat: 15 cycles, not 16. -/
theorem cyclesReduce_shares_beat : ¬ ∀ (desc : ReduceParam) (s : CModel)
    (descPtr : UInt32), 1 ≤ desc.rows → 1 ≤ desc.cols →
    readDesc ReduceParam.load 24 descPtr s = .ok desc →
    ∃ n : UInt64, cyclesReduce s descPtr = .ok n ∧ n.toNat = desc.published := by
  intro h
  obtain ⟨n, hrun, hn⟩ := h _ _ _ (by decide) (by decide) (readDesc_reduceMaxState 2 1)
  obtain ⟨m, hrun', hm⟩ := cyclesReduce_eq (readDesc_reduceMaxState 2 1)
  rw [hrun] at hrun'
  cases hrun'
  rw [hn] at hm
  exact absurd hm (by decide)

end EclipseNpu.Runtime

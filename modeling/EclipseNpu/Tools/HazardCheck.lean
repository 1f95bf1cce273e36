import EclipseNpu.Runtime.Footprints
import Mathlib.Tactic.Ring

/-!
# Tools — HazardCheck

The static hazard checker (`tools/hazard_check.py`) on a decoded stream.
Python integers are unbounded, so addresses and lengths are `Nat` here.

Two facts make its verdict usable: its intervals contain every byte the
executor touches (`reads_covered`, `writes_covered`), and a clean report
says that no two instructions of one SYNC-free segment have overlapping
intervals (`hazardCheck_pairwise`).
-/

namespace EclipseNpu.Tools

open EclipseNpu.Lib EclipseNpu.Runtime

/-! ## The checker -/

/-- Half-open byte intervals. -/
abbrev Ranges := List (Nat × Nat)

/-- The half-open byte intervals touched by a 2D tile. -/
def tileRanges (base rows cols stride : Nat) : Ranges :=
  (List.range rows).map fun r => (base + r * stride, base + r * stride + cols * 2)

def rangesOverlap (aRanges bRanges : Ranges) : Bool :=
  aRanges.any fun a => bRanges.any fun b =>
    decide (a.1 < b.2) && decide (b.1 < a.2)

/-- What one instruction reads and writes, each entry with its name. -/
structure Accesses where
  reads : List (String × Ranges)
  writes : List (String × Ranges)

/-- The interval of `n` fp16 elements at `base`. -/
def flatRange (base n : Nat) : Ranges := [(base, base + n * 2)]

/-- `(reads, writes)` of one instruction. -/
def parseInstruction : EasmInsn → Accesses
  | .dmaLoad _ p =>
      { reads := [("DDR", tileRanges p.ddrAddr.toNat p.rows.toNat p.cols.toNat
          p.srcStride.toNat)]
        writes := [("SRAM", tileRanges p.sramAddr.toNat p.rows.toNat
          p.cols.toNat p.dstStride.toNat)] }
  | .dmaStore _ p =>
      { reads := [("SRAM", tileRanges p.sramAddr.toNat p.rows.toNat p.cols.toNat
          p.srcStride.toNat)]
        writes := [("DDR", tileRanges p.ddrAddr.toNat p.rows.toNat p.cols.toNat
          p.dstStride.toNat)] }
  | .matmul _ p =>
      let m := p.M.toNat
      let n := p.N.toNat
      let k := p.K.toNat
      { reads := [("lhs", flatRange p.lhsAddr.toNat (m * k)),
          ("rhs", flatRange p.rhsAddr.toNat (k * n))]
          ++ (if p.accumulate ≠ 0 then
            [("dst", flatRange p.dstAddr.toNat (m * n))] else [])
        writes := [("dst", flatRange p.dstAddr.toNat (m * n))] }
  | .elementwise _ _ p =>
      let n := p.rows.toNat * p.cols.toNat
      -- rhs has `stride ? rows : 1` rows of `blk` elements, not `n` elements
      let rhsElems :=
        p.rhsBlk.toNat * (if p.rhsStride ≠ 0 then p.rows.toNat else 1)
      { reads := [("lhs", flatRange p.lhsAddr.toNat n),
          ("rhs", flatRange p.rhsAddr.toNat rhsElems)]
        writes := [("dst", flatRange p.dstAddr.toNat n)] }
  | .act _ p =>
      { reads := [("src", flatRange p.srcAddr.toNat p.n.toNat)]
        writes := [("dst", flatRange p.dstAddr.toNat p.n.toNat)] }
  | .reduce _ p =>
      { reads := [("src", flatRange p.srcAddr.toNat (p.rows.toNat * p.cols.toNat))]
        writes := [("dst", flatRange p.dstAddr.toNat p.rows.toNat)]
          ++ (if p.kind = 3 then
            [("idx", [(p.idxAddr.toNat, p.idxAddr.toNat + p.rows.toNat * 4)])]
            else []) }
  | .sync => { reads := [], writes := [] }

inductive AccessKind
  | read
  | write
  deriving DecidableEq, Repr

inductive Hazard
  | RAW
  | WAR
  | WAW
  deriving DecidableEq, Repr

/-- An access since the last SYNC. -/
structure Active where
  index : Nat
  op : OpCode
  kind : AccessKind
  name : String
  ranges : Ranges

structure Violation where
  index : Nat
  op : OpCode
  hazard : Hazard
  desc : String
  prevIndex : Nat
  prevOp : OpCode
  prevDesc : String
  deriving DecidableEq, Repr

/-- RAW: current reads against earlier writes. -/
def rawViolations (index : Nat) (op : OpCode) (active : List Active)
    (reads : List (String × Ranges)) : List Violation :=
  reads.flatMap fun read => active.filterMap fun prev =>
    if prev.kind = .write ∧ rangesOverlap read.2 prev.ranges = true then
      some ⟨index, op, .RAW, "read " ++ read.1, prev.index, prev.op,
        "write " ++ prev.name⟩
    else none

/-- WAR/WAW: current writes against earlier reads and writes. -/
def writeViolations (index : Nat) (op : OpCode) (active : List Active)
    (writes : List (String × Ranges)) : List Violation :=
  writes.flatMap fun write => active.filterMap fun prev =>
    if rangesOverlap write.2 prev.ranges = true then
      match prev.kind with
      | .read => some ⟨index, op, .WAR, "write " ++ write.1, prev.index, prev.op,
          "read " ++ prev.name⟩
      | .write => some ⟨index, op, .WAW, "write " ++ write.1, prev.index, prev.op,
          "write " ++ prev.name⟩
    else none

/-- The entries one instruction appends to `active`. -/
def activeEntries (index : Nat) (op : OpCode) (acc : Accesses) : List Active :=
  acc.reads.map (fun r => ⟨index, op, .read, r.1, r.2⟩)
    ++ acc.writes.map (fun w => ⟨index, op, .write, w.1, w.2⟩)

/-- The main loop from instruction `index` on. -/
def checkFrom (index : Nat) (active : List Active) :
    List EasmInsn → List Violation
  | [] => []
  | x :: xs =>
      if x.isSync then checkFrom (index + 1) [] xs
      else
        let acc := parseInstruction x
        rawViolations index x.opcode active acc.reads
          ++ writeViolations index x.opcode active acc.writes
          ++ checkFrom (index + 1) (active ++ activeEntries index x.opcode acc) xs

/-- The violations `main` reports; `[]` is "no hazards". -/
def hazardCheck (xs : List EasmInsn) : List Violation := checkFrom 1 [] xs

/-! ## What a clean report says -/

/-- `a` lies in one of the intervals. -/
def Covers (rs : Ranges) (a : Nat) : Prop := ∃ r ∈ rs, r.1 ≤ a ∧ a < r.2

/-- Two interval lists that cover a common byte overlap. -/
theorem rangesOverlap_of_covers {as bs : Ranges} {a : Nat} (ha : Covers as a)
    (hb : Covers bs a) : rangesOverlap as bs = true := by
  obtain ⟨r, hr, hr1, hr2⟩ := ha
  obtain ⟨q, hq, hq1, hq2⟩ := hb
  simp only [rangesOverlap, List.any_eq_true, Bool.and_eq_true, decide_eq_true_eq]
  exact ⟨r, hr, q, hq, by omega, by omega⟩

/-- `cur` conflicts with the earlier `prev` in none of the three ways. -/
structure NoConflict (prev cur : Accesses) : Prop where
  raw : ∀ w ∈ prev.writes, ∀ r ∈ cur.reads, rangesOverlap r.2 w.2 = false
  war : ∀ r ∈ prev.reads, ∀ w ∈ cur.writes, rangesOverlap w.2 r.2 = false
  waw : ∀ w ∈ prev.writes, ∀ v ∈ cur.writes, rangesOverlap v.2 w.2 = false

/-- `cur` conflicts with no entry of `active`. -/
structure NoConflictActive (active : List Active) (cur : Accesses) : Prop where
  raw : ∀ p ∈ active, p.kind = .write →
    ∀ r ∈ cur.reads, rangesOverlap r.2 p.ranges = false
  write : ∀ p ∈ active, ∀ w ∈ cur.writes, rangesOverlap w.2 p.ranges = false

theorem rawViolations_eq_nil {index : Nat} {op : OpCode} {active : List Active}
    {reads : List (String × Ranges)} :
    rawViolations index op active reads = [] ↔
      ∀ p ∈ active, p.kind = .write →
        ∀ r ∈ reads, rangesOverlap r.2 p.ranges = false := by
  simp only [rawViolations, List.flatMap_eq_nil_iff, List.filterMap_eq_nil_iff,
    ite_eq_right_iff, reduceCtorEq, imp_false, not_and, Bool.not_eq_true]
  exact ⟨fun h p hp hk r hr => h r hr p hp hk, fun h r hr p hp hk => h p hp hk r hr⟩

theorem writeViolations_eq_nil {index : Nat} {op : OpCode} {active : List Active}
    {writes : List (String × Ranges)} :
    writeViolations index op active writes = [] ↔
      ∀ p ∈ active, ∀ w ∈ writes, rangesOverlap w.2 p.ranges = false := by
  have hsome : ∀ (p : Active) (w : String × Ranges),
      (if rangesOverlap w.2 p.ranges = true then
        (match p.kind with
        | .read => some (⟨index, op, .WAR, "write " ++ w.1, p.index, p.op,
            "read " ++ p.name⟩ : Violation)
        | .write => some ⟨index, op, .WAW, "write " ++ w.1, p.index, p.op,
            "write " ++ p.name⟩)
      else none) = none ↔ rangesOverlap w.2 p.ranges = false := by
    intro p w
    cases rangesOverlap w.2 p.ranges <;> cases p.kind <;> simp
  simp only [writeViolations, List.flatMap_eq_nil_iff, List.filterMap_eq_nil_iff,
    hsome]
  exact ⟨fun h p hp w hw => h w hw p hp, fun h w hw p hp => h p hp w hw⟩

/-- One loop iteration without a report. -/
theorem checkFrom_cons {index : Nat} {active : List Active} {x : EasmInsn}
    {xs : List EasmInsn} (hx : x.isSync = false) :
    checkFrom index active (x :: xs) = [] ↔
      NoConflictActive active (parseInstruction x)
        ∧ checkFrom (index + 1)
          (active ++ activeEntries index x.opcode (parseInstruction x)) xs = [] := by
  rw [checkFrom, hx, if_neg (by decide)]
  simp only [List.append_eq_nil_iff, rawViolations_eq_nil, writeViolations_eq_nil]
  constructor
  · rintro ⟨⟨hr, hw⟩, hrest⟩
    exact ⟨⟨hr, hw⟩, hrest⟩
  · rintro ⟨⟨hr, hw⟩, hrest⟩
    exact ⟨⟨hr, hw⟩, hrest⟩

theorem NoConflictActive.left {active more : List Active} {cur : Accesses}
    (h : NoConflictActive (active ++ more) cur) : NoConflictActive active cur :=
  ⟨fun p hp => h.raw p (by simp [hp]), fun p hp => h.write p (by simp [hp])⟩

theorem NoConflictActive.entries {active : List Active} {index : Nat}
    {op : OpCode} {prev cur : Accesses}
    (h : NoConflictActive (active ++ activeEntries index op prev) cur) :
    NoConflict prev cur := by
  refine ⟨fun w hw r hr => ?_, fun r hr w hw => ?_, fun w hw v hv => ?_⟩
  · exact h.raw ⟨index, op, .write, w.1, w.2⟩
      (by simp only [activeEntries, List.mem_append, List.mem_map]
          exact .inr (.inr ⟨w, hw, rfl⟩)) rfl r hr
  · exact h.write ⟨index, op, .read, r.1, r.2⟩
      (by simp only [activeEntries, List.mem_append, List.mem_map]
          exact .inr (.inl ⟨r, hr, rfl⟩)) w hw
  · exact h.write ⟨index, op, .write, w.1, w.2⟩
      (by simp only [activeEntries, List.mem_append, List.mem_map]
          exact .inr (.inr ⟨w, hw, rfl⟩)) v hv

/-- A SYNC-free segment without a report: its instructions conflict with
nothing that was active before it, and not with each other. -/
theorem checkFrom_segment {seg post : List EasmInsn} :
    ∀ {index : Nat} {active : List Active}, (∀ x ∈ seg, x.isSync = false) →
      checkFrom index active (seg ++ post) = [] →
      (∀ x ∈ seg, NoConflictActive active (parseInstruction x))
        ∧ seg.Pairwise fun x y =>
          NoConflict (parseInstruction x) (parseInstruction y) := by
  induction seg with
  | nil => intro _ _ _ _; simp
  | cons x seg ih =>
      intro index active hseg h
      rw [List.cons_append, checkFrom_cons (hseg x (by simp))] at h
      obtain ⟨hx, hrest⟩ := h
      obtain ⟨hact, hpair⟩ := ih (fun y hy => hseg y (by simp [hy])) hrest
      refine ⟨fun y hy => ?_, List.pairwise_cons.mpr ⟨fun y hy => ?_, hpair⟩⟩
      · rcases List.mem_cons.mp hy with rfl | hy
        · exact hx
        · exact (hact y hy).left
      · exact (hact y hy).entries

/-- The loop reaches every suffix of the stream with some `active`. -/
theorem checkFrom_suffix {pre rest : List EasmInsn} :
    ∀ {index : Nat} {active : List Active},
      checkFrom index active (pre ++ rest) = [] →
      ∃ index' active', checkFrom index' active' rest = [] := by
  induction pre with
  | nil => intro index active h; exact ⟨index, active, h⟩
  | cons x pre ih =>
      intro index active h
      by_cases hx : x.isSync = true
      · rw [List.cons_append, checkFrom, if_pos hx] at h
        exact ih h
      · rw [List.cons_append, checkFrom_cons (by simpa using hx)] at h
        exact ih h.2

/-- **A clean report**: inside a SYNC-free segment no two instructions
conflict. -/
theorem hazardCheck_pairwise {xs pre seg post : List EasmInsn}
    (h : hazardCheck xs = []) (heq : xs = pre ++ seg ++ post)
    (hseg : ∀ x ∈ seg, x.isSync = false) :
    seg.Pairwise fun x y =>
      NoConflict (parseInstruction x) (parseInstruction y) := by
  rw [hazardCheck, heq, List.append_assoc] at h
  obtain ⟨_, _, h'⟩ := checkFrom_suffix h
  exact (checkFrom_segment hseg h').2

end EclipseNpu.Tools

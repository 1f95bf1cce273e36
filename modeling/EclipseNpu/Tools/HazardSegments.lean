import EclipseNpu.Lib.Segments
import EclipseNpu.Tools.HazardCheck

/-!
# Tools — HazardSegments

What the hazard checker reports, without its loop. A stream is cut into segments
by its SYNCs; the checker is silent exactly when no two instructions of a segment
conflict (`hazardCheck_eq_nil_iff`), and what it reports are exactly the
conflicts (`mem_hazardCheck`).
-/

namespace EclipseNpu.Tools

open EclipseNpu.Lib EclipseNpu.Runtime

/-- `x` runs before `y` and does not conflict with it. -/
abbrev HazardFree (x y : EasmInsn) : Prop :=
  NoConflict (parseInstruction x) (parseInstruction y)

/-! ## A silent checker -/

section Silent

variable {active : List Active} {cur prev : Accesses} {index : Nat} {op : OpCode}

theorem noConflict_entries :
    NoConflictActive (activeEntries index op prev) cur ↔ NoConflict prev cur := by
  constructor
  · intro h
    exact @NoConflictActive.entries [] index op prev cur h
  · intro h
    refine ⟨fun p hp hk r hr => ?_, fun p hp w hw => ?_⟩
    · rcases List.mem_append.mp hp with hp | hp
      · obtain ⟨r', -, rfl⟩ := List.mem_map.mp hp
        cases hk
      · obtain ⟨w', hw', rfl⟩ := List.mem_map.mp hp
        exact h.raw w' hw' r hr
    · rcases List.mem_append.mp hp with hp | hp
      · obtain ⟨r', hr', rfl⟩ := List.mem_map.mp hp
        exact h.war r' hr' w hw
      · obtain ⟨w', hw', rfl⟩ := List.mem_map.mp hp
        exact h.waw w' hw' w hw

theorem noConflictActive_append {more : List Active} :
    NoConflictActive (active ++ more) cur
      ↔ NoConflictActive active cur ∧ NoConflictActive more cur := by
  constructor
  · intro h
    refine ⟨h.left, fun p hp => ?_, fun p hp => ?_⟩
    · exact h.raw p (List.mem_append_right _ hp)
    · exact h.write p (List.mem_append_right _ hp)
  · rintro ⟨hl, hr⟩
    refine ⟨fun p hp => ?_, fun p hp => ?_⟩
    · rcases List.mem_append.mp hp with hp | hp
      · exact hl.raw p hp
      · exact hr.raw p hp
    · rcases List.mem_append.mp hp with hp | hp
      · exact hl.write p hp
      · exact hr.write p hp

/-- The loop is silent when `active` stands for the instructions `seen`. -/
theorem checkFrom_eq_nil_iff {xs : List EasmInsn} : ∀ {seen : List EasmInsn} {index : Nat}
    {active : List Active},
    (∀ cur, NoConflictActive active cur
      ↔ ∀ y ∈ seen, NoConflict (parseInstruction y) cur) →
    (checkFrom index active xs = []
      ↔ SegmentsFrom EasmInsn.isSync HazardFree seen xs) := by
  induction xs with
  | nil => intro seen index active _; simp [checkFrom]
  | cons x xs ih =>
      intro seen index active hactive
      by_cases hx : x.isSync = true
      · rw [segmentsFrom_sep hx, checkFrom, if_pos hx]
        apply ih
        intro cur
        simp only [List.not_mem_nil, false_implies, implies_true, iff_true]
        exact ⟨by simp, by simp⟩
      · rw [Bool.not_eq_true] at hx
        rw [segmentsFrom_cons hx, checkFrom_cons hx, hactive]
        apply and_congr_right
        intro _
        apply ih
        intro cur
        rw [noConflictActive_append, hactive, noConflict_entries]
        simp only [List.mem_append, List.mem_singleton, or_imp, forall_and, forall_eq]

/-- **The checker is silent** exactly when no two instructions of a SYNC-free
segment conflict. -/
theorem hazardCheck_eq_nil_iff {xs : List EasmInsn} :
    hazardCheck xs = [] ↔ Segments EasmInsn.isSync HazardFree xs := by
  apply checkFrom_eq_nil_iff
  intro cur
  simp only [List.not_mem_nil, false_implies, implies_true, iff_true]
  exact ⟨by simp, by simp⟩

/-- **Conflicts are fenced**: between two instructions that conflict stands a SYNC. -/
def ConflictsFenced (xs : List EasmInsn) : Prop :=
  ∀ (i j : Nat) (x y : EasmInsn), i < j → xs[i]? = some x → xs[j]? = some y →
    ¬ HazardFree x y → ∃ k, i < k ∧ k < j ∧ xs[k]? = some .sync

theorem isSync_iff {x : EasmInsn} : x.isSync = true ↔ x = .sync := by
  cases x <;> simp [EasmInsn.isSync]

/-- A SYNC touches nothing. -/
theorem hazardFree_sync {x y : EasmInsn} (h : x.isSync = true ∨ y.isSync = true) :
    HazardFree x y := by
  rw [isSync_iff, isSync_iff] at h
  rcases h with rfl | rfl
  · constructor <;> intro _ h <;> cases h
  · constructor <;> intro _ _ _ h <;> cases h

theorem segments_iff_conflictsFenced {xs : List EasmInsn} :
    Segments EasmInsn.isSync HazardFree xs ↔ ConflictsFenced xs := by
  rw [segments_iff_between fun _ _ => hazardFree_sync]
  -- the two statements are contrapositives, pair by pair
  constructor
  · intro h i j x y hij hx hy hconflict
    by_contra hnone
    refine hconflict (h i j x y hij hx hy fun k z hik hkj hz => ?_)
    rw [← Bool.not_eq_true, isSync_iff]
    intro hsync
    exact hnone ⟨k, hik, hkj, hsync ▸ hz⟩
  · intro h i j x y hij hx hy hnone
    by_contra hconflict
    obtain ⟨k, hik, hkj, hk⟩ := h i j x y hij hx hy hconflict
    exact absurd (hnone k .sync hik hkj hk) (by decide)

end Silent

/-! ## What it reports -/

/-- A conflict of instruction `j` with the earlier instruction `i`, as it is
reported. -/
inductive Conflict (i j : Nat) (x y : EasmInsn) : Violation → Prop
  | raw {r w : String × Ranges} (hr : r ∈ (parseInstruction y).reads)
      (hw : w ∈ (parseInstruction x).writes) (ho : rangesOverlap r.2 w.2 = true) :
      Conflict i j x y
        ⟨j, y.opcode, .RAW, "read " ++ r.1, i, x.opcode, "write " ++ w.1⟩
  | war {w r : String × Ranges} (hw : w ∈ (parseInstruction y).writes)
      (hr : r ∈ (parseInstruction x).reads) (ho : rangesOverlap w.2 r.2 = true) :
      Conflict i j x y
        ⟨j, y.opcode, .WAR, "write " ++ w.1, i, x.opcode, "read " ++ r.1⟩
  | waw {w w' : String × Ranges} (hw : w ∈ (parseInstruction y).writes)
      (hw' : w' ∈ (parseInstruction x).writes) (ho : rangesOverlap w.2 w'.2 = true) :
      Conflict i j x y
        ⟨j, y.opcode, .WAW, "write " ++ w.1, i, x.opcode, "write " ++ w'.1⟩

/-- Instructions `i` to `j` of the stream, counted from 1, have no SYNC among
them. -/
def SyncFree (xs : List EasmInsn) (i j : Nat) : Prop :=
  ∀ k z, i ≤ k + 1 → k + 1 ≤ j → xs[k]? = some z → z.isSync = false

/-- The entries of `active` before instruction `index`: those of the
instructions since the last SYNC. -/
def Tracks (xs : List EasmInsn) (index : Nat) (active : List Active) : Prop :=
  ∀ a, a ∈ active ↔ ∃ i x, i + 1 < index ∧ xs[i]? = some x
    ∧ SyncFree xs (i + 1) (index - 1)
    ∧ a ∈ activeEntries (i + 1) x.opcode (parseInstruction x)

section Reports

variable {xs : List EasmInsn} {i j index : Nat} {x y : EasmInsn} {v : Violation}
  {active : List Active}

theorem mem_violations_raw {reads : List (String × Ranges)} {op : OpCode} :
    v ∈ rawViolations index op active reads ↔ ∃ r ∈ reads, ∃ p ∈ active,
      p.kind = .write ∧ rangesOverlap r.2 p.ranges = true
        ∧ v = ⟨index, op, .RAW, "read " ++ r.1, p.index, p.op, "write " ++ p.name⟩ := by
  simp only [rawViolations, List.mem_flatMap, List.mem_filterMap]
  constructor
  · rintro ⟨r, hr, p, hp, hv⟩
    split_ifs at hv with h
    cases hv
    exact ⟨r, hr, p, hp, h.1, h.2, rfl⟩
  · rintro ⟨r, hr, p, hp, hk, ho, hv⟩
    refine ⟨r, hr, p, hp, ?_⟩
    rw [if_pos ⟨hk, ho⟩, hv]

theorem mem_violations_write {writes : List (String × Ranges)} {op : OpCode} :
    v ∈ writeViolations index op active writes ↔ ∃ w ∈ writes, ∃ p ∈ active,
      rangesOverlap w.2 p.ranges = true
        ∧ ((p.kind = .read
            ∧ v = ⟨index, op, .WAR, "write " ++ w.1, p.index, p.op, "read " ++ p.name⟩)
          ∨ (p.kind = .write
            ∧ v = ⟨index, op, .WAW, "write " ++ w.1, p.index, p.op,
              "write " ++ p.name⟩)) := by
  simp only [writeViolations, List.mem_flatMap, List.mem_filterMap]
  constructor
  · rintro ⟨w, hw, p, hp, hv⟩
    split_ifs at hv with ho
    refine ⟨w, hw, p, hp, ho, ?_⟩
    cases hk : p.kind with
    | read =>
        rw [hk] at hv
        exact .inl ⟨rfl, (Option.some.inj hv).symm⟩
    | write =>
        rw [hk] at hv
        exact .inr ⟨rfl, (Option.some.inj hv).symm⟩
  · rintro ⟨w, hw, p, hp, ho, hv⟩
    refine ⟨w, hw, p, hp, ?_⟩
    rw [if_pos ho]
    rcases hv with ⟨hk, hv⟩ | ⟨hk, hv⟩
    · rw [hk, hv]
    · rw [hk, hv]

/-- One iteration reports the conflicts with what is active. -/
theorem mem_step_iff (hactive : Tracks xs index active) :
    v ∈ rawViolations index y.opcode active (parseInstruction y).reads
        ++ writeViolations index y.opcode active (parseInstruction y).writes
      ↔ ∃ i x, i + 1 < index ∧ xs[i]? = some x ∧ SyncFree xs (i + 1) (index - 1)
        ∧ Conflict (i + 1) index x y v := by
  rw [List.mem_append, mem_violations_raw, mem_violations_write]
  constructor
  · rintro (⟨r, hr, p, hp, hk, ho, rfl⟩ | ⟨w, hw, p, hp, ho, hv⟩)
    · obtain ⟨i, x, hi, hx, hfree, hmem⟩ := (hactive p).mp hp
      refine ⟨i, x, hi, hx, hfree, ?_⟩
      rcases List.mem_append.mp hmem with hmem | hmem
      · obtain ⟨r', -, rfl⟩ := List.mem_map.mp hmem
        cases hk
      · obtain ⟨w, hw, rfl⟩ := List.mem_map.mp hmem
        exact .raw hr hw ho
    · obtain ⟨i, x, hi, hx, hfree, hmem⟩ := (hactive p).mp hp
      refine ⟨i, x, hi, hx, hfree, ?_⟩
      rcases List.mem_append.mp hmem with hmem | hmem
      · obtain ⟨r, hr, rfl⟩ := List.mem_map.mp hmem
        rcases hv with ⟨-, rfl⟩ | ⟨hk, -⟩
        · exact .war hw hr ho
        · cases hk
      · obtain ⟨w', hw', rfl⟩ := List.mem_map.mp hmem
        rcases hv with ⟨hk, -⟩ | ⟨-, rfl⟩
        · cases hk
        · exact .waw hw hw' ho
  · rintro ⟨i, x, hi, hx, hfree, hv⟩
    have hread : ∀ r ∈ (parseInstruction x).reads,
        (⟨i + 1, x.opcode, .read, r.1, r.2⟩ : Active) ∈ active := fun r hr =>
      (hactive _).mpr ⟨i, x, hi, hx, hfree,
        List.mem_append_left _ (List.mem_map_of_mem hr)⟩
    have hwrite : ∀ w ∈ (parseInstruction x).writes,
        (⟨i + 1, x.opcode, .write, w.1, w.2⟩ : Active) ∈ active := fun w hw =>
      (hactive _).mpr ⟨i, x, hi, hx, hfree,
        List.mem_append_right _ (List.mem_map_of_mem hw)⟩
    cases hv with
    | raw hr hw ho => exact .inl ⟨_, hr, _, hwrite _ hw, rfl, ho, rfl⟩
    | war hw hr ho => exact .inr ⟨_, hw, _, hread _ hr, ho, .inl ⟨rfl, rfl⟩⟩
    | waw hw hw' ho => exact .inr ⟨_, hw, _, hwrite _ hw', ho, .inr ⟨rfl, rfl⟩⟩

theorem SyncFree.snoc (h : SyncFree xs i j) (hy : xs[j]? = some y)
    (hsync : y.isSync = false) : SyncFree xs i (j + 1) := by
  intro k z hi hk hz
  by_cases hlast : k = j
  · rw [hlast, hy] at hz
    cases hz
    exact hsync
  · exact h k z hi (by omega) hz

/-- After a SYNC nothing is active. -/
theorem Tracks.sync (hy : xs[j]? = some y) (hsync : y.isSync = true) :
    Tracks xs (j + 2) [] := by
  intro a
  simp only [List.not_mem_nil, false_iff]
  rintro ⟨i, x, hi, hx, hfree, _⟩
  have hno := hfree j y (by omega) (by omega) hy
  rw [hsync] at hno
  cases hno

/-- After any other instruction its own entries are active as well. -/
theorem Tracks.insn (h : Tracks xs (j + 1) active) (hy : xs[j]? = some y)
    (hsync : y.isSync = false) :
    Tracks xs (j + 2) (active ++ activeEntries (j + 1) y.opcode (parseInstruction y)) := by
  intro a
  rw [List.mem_append, h a]
  constructor
  · rintro (⟨i, x, hi, hx, hfree, ha⟩ | ha)
    · exact ⟨i, x, by omega, hx, hfree.snoc hy hsync, ha⟩
    · refine ⟨j, y, by omega, hy, ?_, ha⟩
      intro k z hi hk hz
      obtain rfl : k = j := by omega
      rw [hy] at hz
      cases hz
      exact hsync
  · rintro ⟨i, x, hi, hx, hfree, ha⟩
    by_cases hlast : i = j
    · subst hlast
      rw [hy] at hx
      cases hx
      exact .inr ha
    · refine .inl ⟨i, x, by omega, hx, fun k z hk hk' hz => ?_, ha⟩
      exact hfree k z hk (by omega) hz

theorem mem_checkFrom (rest : List EasmInsn) : ∀ {done : List EasmInsn}
    {active : List Active}, xs = done ++ rest → Tracks xs (done.length + 1) active →
    (v ∈ checkFrom (done.length + 1) active rest
      ↔ ∃ i j x y, i < j ∧ done.length ≤ j ∧ xs[i]? = some x ∧ xs[j]? = some y
        ∧ SyncFree xs (i + 1) (j + 1) ∧ Conflict (i + 1) (j + 1) x y v) := by
  induction rest with
  | nil =>
      intro done active heq _
      simp only [checkFrom, List.not_mem_nil, false_iff]
      rintro ⟨i, j, x, y, hij, hj, hx, hy, _⟩
      rw [heq, List.append_nil] at hy
      have := (List.getElem?_eq_some_iff.mp hy).1
      omega
  | cons y rest ih =>
      intro done active heq hactive
      have hy : xs[done.length]? = some y := by
        rw [heq, List.getElem?_append_right (Nat.le_refl _), Nat.sub_self,
          List.getElem?_cons_zero]
      have hlen : (done ++ [y]).length = done.length + 1 := by simp
      have heq' : xs = (done ++ [y]) ++ rest := by simp [heq]
      -- the first instruction of the rest, or a later one
      have hsplit : (∃ i j x z, i < j ∧ done.length ≤ j ∧ xs[i]? = some x
            ∧ xs[j]? = some z ∧ SyncFree xs (i + 1) (j + 1)
            ∧ Conflict (i + 1) (j + 1) x z v)
          ↔ (∃ i x, i < done.length ∧ xs[i]? = some x
              ∧ SyncFree xs (i + 1) (done.length + 1)
              ∧ Conflict (i + 1) (done.length + 1) x y v)
            ∨ ∃ i j x z, i < j ∧ done.length + 1 ≤ j ∧ xs[i]? = some x
              ∧ xs[j]? = some z ∧ SyncFree xs (i + 1) (j + 1)
              ∧ Conflict (i + 1) (j + 1) x z v := by
        constructor
        · rintro ⟨i, j, x, z, hij, hj, hx, hz, hfree, hv⟩
          by_cases hfirst : j = done.length
          · subst hfirst
            rw [hy] at hz
            cases hz
            exact .inl ⟨i, x, hij, hx, hfree, hv⟩
          · exact .inr ⟨i, j, x, z, hij, by omega, hx, hz, hfree, hv⟩
        · rintro (⟨i, x, hi, hx, hfree, hv⟩ | ⟨i, j, x, z, hij, hj, hx, hz, hfree, hv⟩)
          · exact ⟨i, done.length, x, y, hi, Nat.le_refl _, hx, hy, hfree, hv⟩
          · exact ⟨i, j, x, z, hij, by omega, hx, hz, hfree, hv⟩
      rw [hsplit]
      by_cases hsync : y.isSync = true
      · have htail := @ih (done ++ [y]) [] heq' (by rw [hlen]; exact .sync hy hsync)
        rw [hlen] at htail
        rw [checkFrom, if_pos hsync, htail]
        constructor
        · exact .inr
        · rintro (⟨i, x, hi, hx, hfree, -⟩ | h)
          · have hno := hfree done.length y (by omega) (Nat.le_refl _) hy
            rw [hsync] at hno
            cases hno
          · exact h
      · rw [Bool.not_eq_true] at hsync
        have htail := @ih (done ++ [y]) _ heq' (by rw [hlen]; exact hactive.insn hy hsync)
        rw [hlen] at htail
        rw [checkFrom, if_neg (by simp [hsync])]
        dsimp only
        rw [List.mem_append, htail, mem_step_iff hactive]
        apply or_congr_left
        constructor
        · rintro ⟨i, x, hi, hx, hfree, hv⟩
          exact ⟨i, x, by omega, hx, SyncFree.snoc hfree hy hsync, hv⟩
        · rintro ⟨i, x, hi, hx, hfree, hv⟩
          exact ⟨i, x, by omega, hx, fun k z hk hk' => hfree k z hk (by omega), hv⟩

/-- **What is reported** are the conflicts of two instructions with no SYNC from
the one to the other, each under the numbers of the two, counted from 1. -/
theorem mem_hazardCheck : v ∈ hazardCheck xs ↔
    ∃ i j x y, i < j ∧ xs[i]? = some x ∧ xs[j]? = some y
      ∧ SyncFree xs (i + 1) (j + 1) ∧ Conflict (i + 1) (j + 1) x y v := by
  have hstart : Tracks xs (([] : List EasmInsn).length + 1) [] := by
    intro a
    simp
  rw [hazardCheck]
  refine (@mem_checkFrom xs v xs [] [] rfl hstart).trans ?_
  simp

end Reports

end EclipseNpu.Tools

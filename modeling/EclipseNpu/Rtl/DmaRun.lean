import EclipseNpu.Rtl.DmaCursor

/-!
# Rtl — DmaRun

A whole transfer, cycle by cycle: `S_IDLE`, `S_CHECK`, then `S_RUN`. In the
`c`-th cycle of `S_RUN` the registers are those of burst `2 * c`, or of the
end of the tile (`Transfer.run`), so two bursts leave in every cycle until
none is left; `S_DONE` comes when the last command has left the pipeline.
What a run needs of the descriptor is its `Walk`, the registers at the start
of every burst; rows below `2 ^ 32` give one by position (`Desc.Fits.walk`).
-/

namespace EclipseNpu.Rtl

open EclipseNpu.Lib EclipseNpu.Runtime

variable {AW LAST : Nat}

/-! ## Descriptors and transfers -/

/-- A descriptor the engine accepts, whose rows lie below `2 ^ 32`. -/
structure Desc.Fits (d : Desc) : Prop where
  aligned : d.alignedOk = true
  pos : 0 < d.toRows.bytes
  rows : ∀ i < d.rows.toNat, d.toRows.start i + d.toRows.bytes ≤ 4294967296

/-- The bursts of a transfer. -/
def Desc.bursts (d : Desc) : Nat := d.toRows.blocksBefore d.rows.toNat

/-- A transfer: the trace of an engine that idles, samples `desc_start` in
cycle 0 and then sees a stable descriptor. -/
structure Transfer (d : Desc) (start : Nat → Bool) (σ : Nat → State AW LAST) :
    Prop where
  reachable : Reachable (σ 0)
  idle : (σ 0).state = .S_IDLE
  started : start 0 = true
  step : ∀ c, σ (c + 1) = (σ c).step ⟨true, start c, d⟩

/-- The engine clocked from `s` with stable ports. -/
def simulate (d : Desc) (start : Nat → Bool) (s : State AW LAST) :
    Nat → State AW LAST
  | 0 => s
  | c + 1 => (simulate d start s c).step ⟨true, start c, d⟩

/-- After a reset the engine is ready for a transfer. -/
theorem simulate_transfer (d : Desc) (start : Nat → Bool) (h : start 0 = true)
    (s : State AW LAST) : Transfer d start (simulate d start s.reset) :=
  ⟨.reset s, rfl, h, fun _ => rfl⟩

/-- The last cycle of `S_RUN`, counted from its first one. -/
def lastRun (LAST bursts : Nat) : Nat :=
  if bursts = 0 then 0 else (bursts + 1) / 2 + LAST + 1

section Positions

variable {d : Desc}

theorem Desc.Fits.inRow (h : d.Fits) {k : Nat} (hk : k < d.bursts) :
    d.toRows.InRow (d.toRows.posAt k) :=
  ⟨h.pos, d.rowBytes.isLt, h.rows _ ((d.toRows.posAt_row_lt k _).mpr hk),
    (d.toRows.posAt_spec k).1⟩

/-- The row register up to the end of the tile. -/
theorem regs_row_toNat {k : Nat} (hk : k ≤ d.bursts) :
    (regs d (d.toRows.posAt k)).row.toNat = (d.toRows.posAt k).row := by
  refine toNat_ofNat32 ?_
  have hle : (d.toRows.posAt k).row < d.rows.toNat + 1 := by
    rw [d.toRows.posAt_row_lt, d.toRows.blocksBefore_succ]
    unfold blockCount
    change k ≤ d.toRows.blocksBefore d.rows.toNat at hk
    omega
  have := d.rows.isLt
  omega

theorem regs_row_lt_iff {k : Nat} (hk : k ≤ d.bursts) :
    (regs d (d.toRows.posAt k)).row < d.rows ↔ k < d.bursts := by
  rw [BitVec.lt_def, regs_row_toNat hk]
  exact d.toRows.posAt_row_lt k d.rows.toNat

theorem burstNext_posAt (h : d.Fits) {k : Nat} (hk : k < d.bursts) :
    burstNext d (regs d (d.toRows.posAt k)) = regs d (d.toRows.posAt (k + 1)) :=
  burstNext_regs (h.inRow hk)

/-- The bursts of a transfer: the registers at the start of each, and how
many there are. -/
structure Walk (d : Desc) (pos : Nat → Cursor) (bursts : Nat) : Prop where
  aligned : d.alignedOk = true
  first : pos 0 = State.firstCursor d
  next : ∀ k < bursts, burstNext d (pos k) = pos (k + 1)
  row_lt : ∀ k ≤ bursts, (pos k).row < d.rows ↔ k < bursts

/-- Rows below `2 ^ 32` are walked block by block. -/
theorem Desc.Fits.walk (h : d.Fits) :
    Walk d (fun k => regs d (d.toRows.posAt k)) d.bursts where
  aligned := h.aligned
  first := (firstCursor_eq d).symm
  next _ hk := burstNext_posAt h hk
  row_lt _ hk := regs_row_lt_iff hk

namespace Walk

variable {pos : Nat → Cursor} {bursts : Nat}

/-- `issue_v0` and `issue_v1` with the registers of burst `k`. -/
theorem issue_at (w : Walk d pos bursts) {s : State AW LAST} {k : Nat}
    (hs : s.state = .S_RUN) (hc : s.cur = pos k) (hk : k ≤ bursts) :
    s.issueV0 d = decide (k < bursts) ∧ s.issueV1 d = decide (k + 1 < bursts) := by
  have h0 : s.issueV0 d = decide (k < bursts) := by
    rw [State.issueV0, hs, decide_eq_true rfl, Bool.true_and, hc]
    exact decide_eq_decide.mpr (w.row_lt k hk)
  refine ⟨h0, ?_⟩
  rw [State.issueV1, h0]
  by_cases hlt : k < bursts
  · rw [decide_eq_true hlt, Bool.true_and, State.burstB, hc, w.next k hlt]
    exact decide_eq_decide.mpr (w.row_lt (k + 1) hlt)
  · rw [decide_eq_false hlt, Bool.false_and, decide_eq_false (by omega)]

/-- The cursor two bursts later, or at the end of the tile. -/
theorem nextCursor_at (w : Walk d pos bursts) {s : State AW LAST} {k : Nat}
    (hs : s.state = .S_RUN) (hc : s.cur = pos k) (hk : k ≤ bursts) :
    s.nextCursor d = pos (min (k + 2) bursts) := by
  obtain ⟨h0, h1⟩ := w.issue_at hs hc hk
  rw [State.nextCursor, if_neg (by simp [hs]), h0, h1, State.burstB, hc]
  by_cases hlt : k < bursts
  · rw [if_pos (decide_eq_true hlt), w.next k hlt]
    by_cases hlt' : k + 1 < bursts
    · rw [if_pos (decide_eq_true hlt'), w.next (k + 1) hlt', Nat.min_eq_left (by omega)]
    · rw [if_neg (by simp [hlt']), Nat.min_eq_right (by omega)]
      congr 1
      omega
  · rw [if_neg (by simp [hlt]), Nat.min_eq_right (by omega)]
    congr 1
    omega

end Walk

end Positions

/-! ## The run -/

namespace Transfer

variable {d : Desc} {start : Nat → Bool} {σ : Nat → State AW LAST}
  {pos : Nat → Cursor} {bursts : Nat}

theorem pl_succ (t : Transfer d start σ) (c : Nat) :
    (σ (c + 1)).pl = shiftIn ((σ c).entry d) (σ c).pl := by
  rw [t.step c]
  rfl

theorem fsm_succ (t : Transfer d start σ) (c : Nat) :
    (σ (c + 1)).state = (σ c).nextFsm ⟨true, start c, d⟩ := by
  rw [t.step c]
  rfl

theorem cur_succ (t : Transfer d start σ) (c : Nat) :
    (σ (c + 1)).cur = (σ c).nextCursor d := by
  rw [t.step c]
  rfl

theorem wptr_succ (t : Transfer d start σ) (c : Nat) :
    (σ (c + 1)).wptr = (σ c).nextWptr d := by
  rw [t.step c]
  rfl

/-- Stage `i` of the pipeline holds what entered `i + 1` cycles ago. -/
theorem pl_delayed (t : Transfer d start σ) (c : Nat) {i : Nat}
    (hi : i < LAST + 1) : (σ (c + 1 + i)).pl ⟨i, hi⟩ = (σ c).entry d :=
  shiftTrace_delayed (fun c => (σ c).pl) t.pl_succ c hi

/-- A stage that no command of this transfer has reached is empty. -/
theorem pl_initial (t : Transfer d start σ) {c i : Nat} (hi : c ≤ i)
    (hL : i < LAST + 1) :
    ((σ c).pl ⟨i, hL⟩).v0 = false ∧ ((σ c).pl ⟨i, hL⟩).v1 = false := by
  obtain ⟨j, rfl⟩ : ∃ j, i = c + j := ⟨i - c, by omega⟩
  have h := shiftTrace_initial (fun c => (σ c).pl) t.pl_succ hL
  rw [show (σ c).pl ⟨c + j, hL⟩ = _ from h]
  exact plEmpty_iff.mp (t.reachable.plEmpty (by rw [t.idle]; decide)) _

theorem check (t : Transfer d start σ) : (σ 1).state = .S_CHECK := by
  rw [t.fsm_succ 0, State.nextFsm, t.idle]
  exact if_pos t.started

theorem issue_before (t : Transfer d start σ) {c : Nat} (hc : c < 2) :
    (σ c).issueV0 d = false := by
  have hcheck := t.check
  have hidle := t.idle
  refine issueV0_of_not_run ?_
  obtain rfl | rfl : c = 0 ∨ c = 1 := by omega
  · rw [hidle]; decide
  · rw [hcheck]; decide

/-- The first cycle of `S_RUN`. -/
theorem first (t : Transfer d start σ) (w : Walk d pos bursts) :
    (σ 2).state = .S_RUN ∧ (σ 2).cur = pos 0
      ∧ (σ 2).wptr = d.sramAddr.extractLsb' 1 AW := by
  have hcond : (σ 1).state = .S_CHECK ∧ d.alignedOk = true := ⟨t.check, w.aligned⟩
  refine ⟨?_, ?_, ?_⟩
  · rw [t.fsm_succ 1, State.nextFsm, t.check]
    exact if_pos w.aligned
  · rw [t.cur_succ 1, State.nextCursor, if_pos hcond]
    exact w.first.symm
  · rw [t.wptr_succ 1, State.nextWptr, if_pos hcond]

/-- **The run**: until the pipeline has drained, the engine stays in
`S_RUN`, and its registers are two bursts further every cycle. -/
theorem run (t : Transfer d start σ) (w : Walk d pos bursts) {c : Nat}
    (hc : c ≤ lastRun LAST bursts) :
    (σ (2 + c)).state = .S_RUN
      ∧ (σ (2 + c)).cur = pos (min (2 * c) bursts) := by
  induction c using Nat.strongRecOn with
  | ind c ih =>
      cases c with
      | zero =>
          obtain ⟨hs, hcur, -⟩ := t.first w
          rw [Nat.mul_zero, Nat.zero_min]
          exact ⟨hs, hcur⟩
      | succ c =>
          obtain ⟨hs, hcur⟩ := ih c (by omega) (by omega)
          obtain ⟨h0, -⟩ := w.issue_at hs hcur (Nat.min_le_right _ _)
          constructor
          · rw [← Nat.add_assoc, t.fsm_succ, State.nextFsm, hs]
            refine if_neg fun hexit => ?_
            rw [Bool.and_eq_true, Bool.not_eq_true'] at hexit
            obtain ⟨hno, hempty⟩ := hexit
            rw [h0, decide_eq_false_iff_not] at hno
            -- the last command issued is still in the pipeline
            have hb : bursts ≠ 0 := by
              intro hz
              rw [lastRun, if_pos hz] at hc
              omega
            rw [lastRun, if_neg hb] at hc
            obtain ⟨T, hT⟩ : ∃ T, (bursts + 1) / 2 = T + 1 :=
              ⟨(bursts + 1) / 2 - 1, by omega⟩
            obtain ⟨i, rfl⟩ : ∃ i, c = T + 1 + i := ⟨c - (T + 1), by omega⟩
            have hi : i < LAST + 1 := by omega
            obtain ⟨hsT, hcurT⟩ := ih T (by omega) (by rw [lastRun, if_neg hb]; omega)
            have hissue := (w.issue_at hsT hcurT (Nat.min_le_right _ _)).1
            have hpl := t.pl_delayed (2 + T) hi
            rw [show 2 + T + 1 + i = 2 + (T + 1 + i) by omega] at hpl
            have hv := (plEmpty_iff.mp hempty ⟨i, hi⟩).1
            rw [hpl] at hv
            rw [show ((σ (2 + T)).entry d).v0 = _ from hissue,
              decide_eq_false_iff_not] at hv
            omega
          · rw [← Nat.add_assoc, t.cur_succ, w.nextCursor_at hs hcur (Nat.min_le_right _ _)]
            congr 1
            omega

/-- Which bursts leave in a cycle of `S_RUN`. -/
theorem issue (t : Transfer d start σ) (w : Walk d pos bursts) {c : Nat}
    (hc : c ≤ lastRun LAST bursts) :
    (σ (2 + c)).issueV0 d = decide (2 * c < bursts)
      ∧ (σ (2 + c)).issueV1 d = decide (2 * c + 1 < bursts) := by
  obtain ⟨hs, hcur⟩ := t.run w hc
  obtain ⟨h0, h1⟩ := w.issue_at hs hcur (Nat.min_le_right _ _)
  rw [h0, h1]
  exact ⟨decide_eq_decide.mpr (by omega), decide_eq_decide.mpr (by omega)⟩

theorem lastRun_ge (LAST bursts : Nat) :
    bursts ≤ 2 * lastRun LAST bursts := by
  unfold lastRun
  split_ifs <;> omega

/-- The answers to the last bursts arrive before the run ends. -/
theorem lastRun_answers (LAST bursts : Nat) :
    lastRun LAST bursts + 3 = 2 + (lastRun LAST bursts - LAST) + (LAST + 1)
        ∧ bursts ≤ 2 * (lastRun LAST bursts - LAST)
      ∨ bursts = 0 ∧ lastRun LAST bursts = 0 := by
  unfold lastRun
  split_ifs with h0
  · exact .inr ⟨h0, rfl⟩
  · exact .inl (by omega)

/-- The pipeline has drained in the last cycle of `S_RUN`. -/
theorem drained (t : Transfer d start σ) (w : Walk d pos bursts) :
    (σ (2 + lastRun LAST bursts)).plEmpty = true := by
  rw [plEmpty_iff]
  rintro ⟨i, hi⟩
  by_cases hc : 2 + lastRun LAST bursts ≤ i
  · exact t.pl_initial hc hi
  · -- what entered `i + 1` cycles ago was no command
    obtain ⟨c, hce⟩ : ∃ c, 2 + lastRun LAST bursts = c + 1 + i :=
      ⟨2 + lastRun LAST bursts - (i + 1), by omega⟩
    have hno : (σ c).issueV0 d = false := by
      by_cases h2 : c < 2
      · exact t.issue_before h2
      · obtain ⟨c', rfl⟩ : ∃ c', c = 2 + c' := ⟨c - 2, by omega⟩
        rw [(t.issue w (show c' ≤ _ by omega)).1, decide_eq_false_iff_not]
        unfold lastRun at hce
        split_ifs at hce <;> omega
    rw [hce, t.pl_delayed c hi]
    exact ⟨hno, issueV1_of_issueV0 hno⟩

/-- **`done` is first high right after the run.** -/
theorem done_first (t : Transfer d start σ) (w : Walk d pos bursts) :
    (σ (lastRun LAST bursts + 3)).done = true
      ∧ ∀ c < lastRun LAST bursts + 3, (σ c).done = false := by
  constructor
  · obtain ⟨hs, -⟩ := t.run w (Nat.le_refl _)
    have hno : (σ (2 + lastRun LAST bursts)).issueV0 d = false := by
      rw [(t.issue w (Nat.le_refl _)).1, decide_eq_false_iff_not]
      have := lastRun_ge LAST bursts
      omega
    rw [show lastRun LAST bursts + 3 = 2 + lastRun LAST bursts + 1 by omega,
      State.done, t.fsm_succ, State.nextFsm, hs]
    exact decide_eq_true (if_pos (by rw [hno, t.drained w]; rfl))
  · intro c hc
    refine decide_eq_false ?_
    by_cases h2 : c < 2
    · obtain rfl | rfl : c = 0 ∨ c = 1 := by omega
      · rw [t.idle]; decide
      · rw [t.check]; decide
    · obtain ⟨c', rfl⟩ : ∃ c', c = 2 + c' := ⟨c - 2, by omega⟩
      rw [(t.run w (show c' ≤ _ by omega)).1]
      decide

end Transfer

end EclipseNpu.Rtl

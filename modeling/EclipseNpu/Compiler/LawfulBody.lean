import EclipseNpu.Compiler.EmitSound
import EclipseNpu.Compiler.TensorSem

/-!
# Compiler — LawfulBody

A converted body holds only operations the emitter and the executor handle, also
after `eclipse-elide-copies`: its computations pass the dialect's verifiers, its
transfers move whole buffers or aligned K blocks, and the tile that replaces a
dropped one is never the tile the operation writes.
-/

namespace EclipseNpu.Compiler

open EclipseNpu.Runtime

/-- No operand is empty, and no reduction is an ARGMAX, which no pattern makes. -/
structure Lowering.Regular (l : Lowering) : Prop where
  nonempty : ∀ v ∈ l.operands, 0 < v.type.numElements
  unindexed : ∀ src dst reshape, l ≠ .reduce .ARGMAX src dst reshape

/-! ## Shapes -/

section Shapes

variable {v : Value} {rows cols p : Nat} {l : Lowering}

theorem f16Shape_of_isF16 (h : isF16 v rows cols = true) : F16Shape v rows cols := by
  rw [isF16, decide_eq_true_eq] at h
  exact ⟨h.1, h.2⟩

theorem F16Shape.pos (h : F16Shape v rows cols) (hv : 0 < v.type.numElements) :
    0 < rows ∧ 0 < cols := by
  rw [h.elements] at hv
  exact ⟨Nat.pos_of_mul_pos_right hv, Nat.pos_of_mul_pos_left hv⟩

/-- A value of the type of a tile. -/
theorem F16Shape.sram (h : F16Shape v rows cols) {t : Value} (ht : t.type = sramTypeOf v) :
    F16Shape t rows cols ∧ isSRAMMemRef t = true ∧ dim t 0 = rows ∧ dim t 1 = cols := by
  refine ⟨⟨?_, ?_⟩, ?_, ?_, ?_⟩
  · rw [ht]
    exact h.shape
  · rw [ht]
    exact h.bits
  · simp [isSRAMMemRef, ht, sramTypeOf, h.shape, h.bits]
  · simp [dim, ht, sramTypeOf, h.shape]
  · simp [dim, ht, sramTypeOf, h.shape]

theorem verify_matmul {lhs rhs dst : Value}
    (hv : (Lowering.matmul lhs rhs dst).verify = true) :
    F16Shape lhs (matmulM lhs) (matmulK lhs) ∧ F16Shape rhs (matmulK lhs) (matmulN rhs)
      ∧ F16Shape dst (matmulM lhs) (matmulN rhs)
      ∧ 0 < matmulK lhs ∧ matmulK lhs % tileK = 0 := by
  simp only [Lowering.verify, Bool.and_eq_true, decide_eq_true_eq] at hv
  obtain ⟨⟨⟨hlhs, hrhs⟩, hdst⟩, hK⟩ := hv
  exact ⟨f16Shape_of_isF16 hlhs, f16Shape_of_isF16 hrhs, f16Shape_of_isF16 hdst, hK⟩

theorem verify_ewise {kind : BinOp} {big small out : Value}
    (hv : (Lowering.ewise kind big small out).verify = true) :
    ∃ rows cols m n, F16Shape out rows cols ∧ F16Shape big rows cols ∧ F16Shape small m n
      ∧ smallShapeOk m n rows cols = true := by
  simp only [Lowering.verify] at hv
  split at hv
  · rename_i rows cols m n _ _
    simp only [Bool.and_eq_true] at hv
    obtain ⟨⟨⟨hout, hbig⟩, hsmall⟩, hok⟩ := hv
    exact ⟨rows, cols, m, n, f16Shape_of_isF16 hout, f16Shape_of_isF16 hbig,
      f16Shape_of_isF16 hsmall, hok⟩
  · cases hv

theorem verify_act {kind : ActKind} {src dst : Value}
    (hv : (Lowering.act kind src dst).verify = true) :
    ∃ rows cols, F16Shape dst rows cols ∧ F16Shape src rows cols := by
  simp only [Lowering.verify] at hv
  split at hv
  · rename_i rows cols _
    rw [Bool.and_eq_true] at hv
    exact ⟨rows, cols, f16Shape_of_isF16 hv.1, f16Shape_of_isF16 hv.2⟩
  · cases hv

theorem verify_reduce {kind : ReduceKind} {src dst : Value} {reshape : Bool}
    (hv : (Lowering.reduce kind src dst reshape).verify = true) (p : Nat) :
    ∃ rows cols, F16Shape src rows cols
      ∧ F16Shape (Lowering.target p (.reduce kind src dst reshape)) rows 1 := by
  simp only [Lowering.verify] at hv
  split at hv
  · rename_i rows cols _
    simp only [Bool.and_eq_true, decide_eq_true_eq] at hv
    obtain ⟨⟨⟨hsrc, -⟩, hbits⟩, hshape⟩ := hv
    refine ⟨rows, cols, f16Shape_of_isF16 hsrc, ?_, ?_⟩
    · cases reshape with
      | false => exact hshape
      | true =>
          show [dst.type.shape.headD 0, 1] = [rows, 1]
          rw [hshape]
          rfl
    · cases reshape <;> exact hbits
  · cases hv

end Shapes

/-! ## Computing -/

/-- **A renaming of the tiles of an item**: types and the result tile stay, and
nothing becomes the result tile. -/
structure KeepsTiles (q : Nat) (l : Lowering) (f : Value → Value) : Prop where
  type : ∀ k t, (f (tileIn q k t)).type = t
  out : ∀ t, f (tileOut q t) = tileOut q t
  ne : ∀ k t t', f (tileIn q k t) ≠ tileOut q t'
  block : l.ins = [] → ∀ k t, f (tileIn q k t) = tileIn q k t

section Computing

variable {items : List (Item Lowering)} {pairs : List (Value × Value)} {q : Nat} {l : Lowering}
  {f g : Value → Value} {layout : Layout}

theorem ForwardPairs.keepsTiles (hp : ForwardPairs items pairs) (h : BufferBody items)
    (hl : items[q]? = some (.op l)) : KeepsTiles q l (replaceUses pairs) where
  type k t := (hp.tile h (v := tileIn q k t) rfl).1
  out t := replaceUses_of_root (hp.untouched fun q' k t' heq => by cases heq)
  ne k t t' := by
    by_cases hf : ∃ x j l', Forwards items q k x t j l'
    · obtain ⟨x, j, l', hf⟩ := hf
      obtain ⟨hlt, -, -⟩ := lastStoreTo_some hf.last
      obtain ⟨type, htype⟩ := outTile_eq j l'
      rw [hp.forward hf, htype]
      intro heq
      cases heq
      exact Nat.lt_irrefl _ hlt
    · rw [hp.loaded fun x j l' hf' => hf ⟨x, j, l', hf'⟩]
      intro heq
      cases heq
  block hins k t := by
    refine hp.loaded fun x j l' hf => ?_
    obtain ⟨m, hm, hx⟩ := hf.load
    rw [hl] at hm
    cases hm
    rw [hins] at hx
    cases hx

/-- **The dialect accepts every computation of a converted body**, whatever tiles of
the same types it works on. -/
theorem compute_accepted (hv : l.verify = true) (hreg : l.Regular) (hf : KeepsTiles q l f)
    (accumulate : Bool) : ((l.compute q accumulate).mapOperands f g).accepted = true := by
  cases l with
  | matmul lhs rhs dst =>
      obtain ⟨hlhs, hrhs, hdst, -, -⟩ := verify_matmul hv
      have hl : f (lhsTile q lhs) = lhsTile q lhs := hf.block rfl 0 _
      have hr : f (rhsTile q rhs) = rhsTile q rhs := hf.block rfl 1 _
      have hd : f (dstTile q lhs rhs dst) = dstTile q lhs rhs dst := hf.out _
      simp only [Lowering.compute, Op.mapOperands, hl, hr, hd]
      simp [lhsTile, rhsTile, dstTile, tileIn, tileOut, Value.type, Op.accepted,
        Op.operandTypesOk, Op.verify, verifyMatmul, isSRAMMemRef, dim, hlhs.bits, hrhs.bits,
        hdst.bits]
  | ewise kind big small out =>
      obtain ⟨rows, cols, m, n, hout, hbig, hsmall, hok⟩ := verify_ewise hv
      obtain ⟨hb, hbm, -, -⟩ := hbig.sram (hf.type 0 (sramTypeOf big))
      obtain ⟨hs, hsm, hs0, hs1⟩ := hsmall.sram (hf.type 1 (sramTypeOf small))
      obtain ⟨ho, hom, ho0, ho1⟩ := hout.sram (t := tileOut q (sramTypeOf out)) rfl
      rw [smallShapeOk, Bool.and_eq_true, decide_eq_true_eq, decide_eq_true_eq] at hok
      obtain ⟨⟨hn, hmod⟩, hrows⟩ := hok
      simp only [Lowering.compute, Op.mapOperands, hf.out, Op.accepted, Op.operandTypesOk, hbm,
        hsm, hom, Bool.and_self, Bool.true_and, decide_eq_true_eq]
      rw [Op.verify, verifyEwiseShapes, if_neg (by rw [hb.shape, ho.shape]; exact not_not.mpr rfl),
        if_neg (by rw [ho.shape, hs.shape]; simp), hs0, ho0, hs1, ho1,
        if_neg (by omega), if_neg (by omega)]
  | act kind src dst =>
      obtain ⟨rows, cols, hdst, hsrc⟩ := verify_act hv
      obtain ⟨hs, hsm, -, -⟩ := hdst.sram (hf.type 0 (sramTypeOf dst))
      obtain ⟨ho, hom, -, -⟩ := hdst.sram (t := tileOut q (sramTypeOf dst)) rfl
      simp only [Lowering.compute, Op.mapOperands, hf.out, Op.accepted, Op.operandTypesOk, hsm,
        hom, Bool.and_self, Bool.true_and, decide_eq_true_eq]
      rw [Op.verify, verifyAct, if_neg (by rw [hs.shape, ho.shape]; exact not_not.mpr rfl)]
  | reduce kind src dst reshape =>
      obtain ⟨rows, cols, hsrc, hdst⟩ := verify_reduce hv q
      obtain ⟨hrows, hcols⟩ := hsrc.pos (hreg.nonempty src (by simp [Lowering.operands]))
      obtain ⟨hs, hsm, hs0, hs1⟩ := hsrc.sram (hf.type 0 (sramTypeOf src))
      obtain ⟨ho, hom, ho0, ho1⟩ := hdst.sram (t := tileOut q (sramTypeOf
        (Lowering.target q (.reduce kind src dst reshape)))) rfl
      simp only [Lowering.compute, Op.mapOperands, hf.out, Op.accepted, Op.operandTypesOk, hsm,
        hom, Bool.and_self, Bool.true_and, decide_eq_true_eq, Option.map_none, Option.all_none]
      rw [Op.verify, verifyReduce, if_neg (by omega), if_neg (by omega),
        if_neg (hf.ne 0 _ _)]
      cases kind with
      | ARGMAX => exact absurd rfl (hreg.unindexed src dst reshape)
      | MAX | SUM | SQUARE_SUM => rfl

theorem F16Shape.words_pos {v : Value} {rows cols : Nat} (h : F16Shape v rows cols)
    (hrows : 0 < rows) (hcols : 0 < cols) : 0 < v.type.words := by
  rw [h.words]
  exact Nat.mul_pos hrows hcols

/-- Its tiles are not empty. -/
theorem compute_words_pos (hv : l.verify = true) (hreg : l.Regular)
    (hf : KeepsTiles q l f) (accumulate : Bool) {v : Value}
    (hmem : v ∈ ((l.compute q accumulate).mapOperands f g).operands) : 0 < v.type.words := by
  cases l with
  | matmul lhs rhs dst =>
      obtain ⟨hlhs, hrhs, hdst, -, -⟩ := verify_matmul hv
      obtain ⟨hM, -⟩ := hlhs.pos (hreg.nonempty lhs (by simp [Lowering.operands]))
      obtain ⟨-, hN⟩ := hrhs.pos (hreg.nonempty rhs (by simp [Lowering.operands]))
      have hl : f (lhsTile q lhs) = lhsTile q lhs := hf.block rfl 0 _
      have hr : f (rhsTile q rhs) = rhsTile q rhs := hf.block rfl 1 _
      have hd : f (dstTile q lhs rhs dst) = dstTile q lhs rhs dst := hf.out _
      simp only [Lowering.compute, Op.mapOperands, hl, hr, hd, Op.operands, List.mem_cons,
        List.not_mem_nil, or_false] at hmem
      rcases hmem with rfl | rfl | rfl
      · have htile : F16Shape (lhsTile q lhs) (matmulM lhs) tileK := ⟨rfl, hlhs.bits⟩
        exact htile.words_pos hM (by decide)
      · have htile : F16Shape (rhsTile q rhs) tileK (matmulN rhs) := ⟨rfl, hrhs.bits⟩
        exact htile.words_pos (by decide) hN
      · have htile : F16Shape (dstTile q lhs rhs dst) (matmulM lhs) (matmulN rhs) :=
          ⟨rfl, hdst.bits⟩
        exact htile.words_pos hM hN
  | ewise kind big small out =>
      obtain ⟨rows, cols, m, n, hout, hbig, hsmall, -⟩ := verify_ewise hv
      obtain ⟨hrows, hcols⟩ := hout.pos (hreg.nonempty out (by simp [Lowering.operands]))
      obtain ⟨hm, hn⟩ := hsmall.pos (hreg.nonempty small (by simp [Lowering.operands]))
      simp only [Lowering.compute, Op.mapOperands, hf.out, Op.operands, List.mem_cons,
        List.not_mem_nil, or_false] at hmem
      rcases hmem with rfl | rfl | rfl
      · exact (hbig.sram (hf.type 0 (sramTypeOf big))).1.words_pos hrows hcols
      · exact (hsmall.sram (hf.type 1 (sramTypeOf small))).1.words_pos hm hn
      · exact (hout.sram (t := tileOut q (sramTypeOf out)) rfl).1.words_pos hrows hcols
  | act kind src dst =>
      obtain ⟨rows, cols, hdst, -⟩ := verify_act hv
      obtain ⟨hrows, hcols⟩ := hdst.pos (hreg.nonempty dst (by simp [Lowering.operands]))
      simp only [Lowering.compute, Op.mapOperands, hf.out, Op.operands, List.mem_cons,
        List.not_mem_nil, or_false] at hmem
      rcases hmem with rfl | rfl
      · exact (hdst.sram (hf.type 0 (sramTypeOf dst))).1.words_pos hrows hcols
      · exact (hdst.sram (t := tileOut q (sramTypeOf dst)) rfl).1.words_pos hrows hcols
  | reduce kind src dst reshape =>
      obtain ⟨rows, cols, hsrc, hdst⟩ := verify_reduce hv q
      obtain ⟨hrows, hcols⟩ := hsrc.pos (hreg.nonempty src (by simp [Lowering.operands]))
      simp only [Lowering.compute, Op.mapOperands, hf.out, Op.operands, Option.map_none,
        Option.toList_none, List.append_nil, List.mem_cons, List.not_mem_nil,
        or_false] at hmem
      rcases hmem with rfl | rfl
      · exact (hsrc.sram (hf.type 0 (sramTypeOf src))).1.words_pos hrows hcols
      · exact (hdst.sram (t := tileOut q (sramTypeOf _)) rfl).1.words_pos hrows (by decide)

theorem compute_distinct (hf : KeepsTiles q l f) (accumulate : Bool) :
    ((l.compute q accumulate).mapOperands f g).Distinct := by
  cases l with
  | matmul lhs rhs dst =>
      have hl : f (lhsTile q lhs) = lhsTile q lhs := hf.block rfl 0 _
      have hr : f (rhsTile q rhs) = rhsTile q rhs := hf.block rfl 1 _
      have hd : f (dstTile q lhs rhs dst) = dstTile q lhs rhs dst := hf.out _
      simp only [Lowering.compute, Op.mapOperands, hl, hr, hd]
      simp [Op.Distinct, lhsTile, rhsTile, dstTile, tileIn, tileOut]
  | ewise kind big small out =>
      simp only [Lowering.compute, Op.mapOperands, hf.out]
      exact hf.ne 1 _ _
  | act kind src dst =>
      simp only [Lowering.compute, Op.mapOperands, hf.out]
      exact hf.ne 0 _ _
  | reduce => trivial

/-- **And the executor handles it.** -/
theorem compute_lawful (hv : l.verify = true) (hreg : l.Regular)
    (hf : KeepsTiles q l f) (accumulate : Bool) :
    ((l.compute q accumulate).mapOperands f g).Lawful layout :=
  .compute (compute_accepted hv hreg hf accumulate)
    (fun _ hmem => compute_words_pos hv hreg hf accumulate hmem)
    (compute_distinct hf accumulate)

end Computing

/-! ## Transfers -/

section Transfers

variable {layout : Layout} {q : Nat} {l : Lowering}

theorem tileIn_aligned (p k : Nat) (t : MemRefType) : 16 ∣ allocAlignment (tileIn p k t) :=
  ⟨2, rfl⟩

theorem tileOut_aligned (p : Nat) (t : MemRefType) : 16 ∣ allocAlignment (tileOut p t) :=
  ⟨2, rfl⟩

theorem source_shape (hv : l.verify = true) {x : Value} (hx : x ∈ l.sources) :
    ∃ rows cols, F16Shape x rows cols := by
  cases l with
  | matmul lhs rhs dst =>
      obtain ⟨hlhs, hrhs, -⟩ := verify_matmul hv
      simp only [Lowering.sources, List.mem_cons, List.not_mem_nil, or_false] at hx
      rcases hx with rfl | rfl
      · exact ⟨_, _, hlhs⟩
      · exact ⟨_, _, hrhs⟩
  | ewise kind big small out =>
      obtain ⟨rows, cols, m, n, -, hbig, hsmall, -⟩ := verify_ewise hv
      simp only [Lowering.sources, List.mem_cons, List.not_mem_nil, or_false] at hx
      rcases hx with rfl | rfl
      · exact ⟨rows, cols, hbig⟩
      · exact ⟨m, n, hsmall⟩
  | act kind src dst =>
      obtain ⟨rows, cols, -, hsrc⟩ := verify_act hv
      obtain rfl := List.mem_singleton.mp hx
      exact ⟨rows, cols, hsrc⟩
  | reduce kind src dst reshape =>
      obtain ⟨rows, cols, hsrc, -⟩ := verify_reduce hv 0
      obtain rfl := List.mem_singleton.mp hx
      exact ⟨rows, cols, hsrc⟩

theorem target_shape (hv : l.verify = true) (hreg : l.Regular) :
    ∃ rows cols, F16Shape (l.target q) rows cols ∧ 0 < rows ∧ 0 < cols := by
  cases l with
  | matmul lhs rhs dst =>
      obtain ⟨-, -, hdst, -⟩ := verify_matmul hv
      exact ⟨_, _, hdst, hdst.pos (hreg.nonempty dst (by simp [Lowering.operands]))⟩
  | ewise kind big small out =>
      obtain ⟨rows, cols, m, n, hout, -⟩ := verify_ewise hv
      exact ⟨rows, cols, hout, hout.pos (hreg.nonempty out (by simp [Lowering.operands]))⟩
  | act kind src dst =>
      obtain ⟨rows, cols, hdst, -⟩ := verify_act hv
      exact ⟨rows, cols, hdst, hdst.pos (hreg.nonempty dst (by simp [Lowering.operands]))⟩
  | reduce kind src dst reshape =>
      obtain ⟨rows, cols, hsrc, hdst⟩ := verify_reduce hv q
      obtain ⟨hrows, -⟩ := hsrc.pos (hreg.nonempty src (by simp [Lowering.operands]))
      exact ⟨rows, 1, hdst, hrows, Nat.one_pos⟩

theorem load_lawful (hv : l.verify = true) (hreg : l.Regular) {k : Nat} {x : Value}
    {t : MemRefType} (hx : l.ins[k]? = some (x, t)) (hx' : layout.isSource x = true) :
    (loadInst q k x t).op.Lawful layout := by
  have hsource := ins_source hx
  obtain ⟨rows, cols, hshape⟩ := source_shape hv hsource
  obtain ⟨hrows, hcols⟩ := hshape.pos (hreg.nonempty x (sources_sub_operands hsource))
  refine .loadWhole hx' hshape ?_ hrows hcols
    (tileIn_aligned q k t)
  exact (hshape.sram (t := tileIn q k t) (ins_type hv hx)).1

theorem store_lawful (hv : l.verify = true) (hreg : l.Regular) :
    (storeInst q l).op.Lawful layout := by
  obtain ⟨rows, cols, hshape, hrows, hcols⟩ := target_shape (q := q) hv hreg
  refine .store hshape (hshape.sram (outTile_type hv q)).1 hrows hcols ?_
  obtain ⟨type, htype⟩ := outTile_eq q l
  rw [htype]
  exact tileOut_aligned q type

/-- The loads of K block `b`. -/
theorem block_lawful {lhs rhs dst : Value}
    (hv : (Lowering.matmul lhs rhs dst).verify = true)
    (hreg : (Lowering.matmul lhs rhs dst).Regular) (hl : layout.isSource lhs = true)
    (hr : layout.isSource rhs = true) {b : Nat} (hb : b < matmulK lhs / tileK)
    {accumulate : Bool} {sub load fence : Nat → Pos} {mac : Pos}
    {i : Inst} (hi : i ∈ matmulBlock q lhs rhs dst (.const (b * tileK)) accumulate sub load
      fence mac) : i.op.Lawful layout := by
  obtain ⟨hlhs, hrhs, hdst, -, hdvd⟩ := verify_matmul hv
  obtain ⟨hM, -⟩ := hlhs.pos (hreg.nonempty lhs (by simp [Lowering.operands]))
  obtain ⟨-, hN⟩ := hrhs.pos (hreg.nonempty rhs (by simp [Lowering.operands]))
  have hend : b * tileK + tileK ≤ matmulK lhs := by
    unfold tileK at *
    omega
  simp only [matmulBlock, List.mem_cons, List.not_mem_nil, or_false] at hi
  rcases hi with rfl | rfl | rfl | rfl | rfl | rfl | rfl
  · exact .silent rfl
  · exact .silent rfl
  · refine .loadBlock hl hlhs
      ⟨rfl, hlhs.bits⟩ (by omega) hend hM (by decide) (tileIn_aligned q 0 _) ?_
    unfold tileK
    omega
  · refine .loadBlock hr hrhs
      ⟨rfl, hrhs.bits⟩ hend (by omega) (by decide) hN (tileIn_aligned q 1 _) ?_
    rw [tileK, Nat.add_zero, show b * 16 * matmulN rhs = 8 * (b * 2 * matmulN rhs) by
      rw [← Nat.mul_assoc]
      congr 1
      omega]
    exact Nat.mul_mod_right 8 _
  · exact .silent rfl
  · have hid : KeepsTiles q (Lowering.matmul lhs rhs dst) id :=
      ⟨fun _ _ => rfl, fun _ => rfl, by simp [tileIn, tileOut], fun _ _ _ => rfl⟩
    exact compute_lawful (g := id) hv hreg hid accumulate
  · exact .silent rfl

/-- **A lowered matmul, unrolled.** -/
theorem matmul_lawful {lhs rhs dst : Value}
    (hv : (Lowering.matmul lhs rhs dst).verify = true)
    (hreg : (Lowering.matmul lhs rhs dst).Regular) (hl : layout.isSource lhs = true)
    (hr : layout.isSource rhs = true) (hl' : lhs.isBuffer = true) (hr' : rhs.isBuffer = true)
    {i : Inst}
    (hi : i ∈ unrollBody (lowerMatmul q lhs rhs dst)) : i.op.Lawful layout := by
  obtain ⟨-, -, -, hK, hdvd⟩ := verify_matmul hv
  obtain ⟨n, hn⟩ : ∃ n, matmulK lhs / tileK = n + 1 :=
    ⟨matmulK lhs / tileK - 1, by unfold tileK at hdvd ⊢; omega⟩
  rw [unroll_matmul (atIteration_buffer hl') (atIteration_buffer hr') hn] at hi
  rcases List.mem_append.mp hi with hi | hi
  · refine .silent ?_
    simp only [matmulDefs, List.mem_cons, List.not_mem_nil, or_false] at hi
    rcases hi with rfl | rfl | rfl | rfl | rfl | rfl <;> rfl
  · rcases List.mem_append.mp hi with hi | hi
    · obtain ⟨b, hb, hi⟩ := List.mem_flatMap.mp hi
      rw [List.mem_range, ← hn] at hb
      cases b with
      | zero => exact block_lawful hv hreg hl hr hb hi
      | succ b => exact block_lawful hv hreg hl hr hb hi
    · rcases List.mem_cons.mp hi with rfl | hi
      · exact store_lawful hv hreg
      · refine .silent ?_
        simp only [matmulFrees, List.mem_cons, List.not_mem_nil, or_false] at hi
        rcases hi with rfl | rfl | rfl <;> rfl

end Transfers

/-! ## Bodies -/

section Bodies

variable {layout : Layout} {items : List (Item Lowering)} {pairs : List (Value × Value)}
  {erased : List OpId} {q : Nat} {l : Lowering}

/-- The buffers item `q` still loads are arguments and allocs in DDR. -/
structure SourcesBound (layout : Layout) (items : List (Item Lowering)) (q : Nat)
    (l : Lowering) : Prop where
  loads : ∀ (k : Nat) (x : Value) (t : MemRefType), l.ins[k]? = some (x, t) →
    (⟨q, .load k⟩ : OpId) ∉ forwardedIds items → layout.isSource x = true
  blocks : ∀ x ∈ l.blocks, layout.isSource x = true

/-- **What is kept of an item.** -/
theorem item_lawful (hp : ForwardPairs items pairs) (h : BufferBody items)
    (hl : items[q]? = some (.op l)) (hreg : l.Regular) (hbound : SourcesBound layout items q l)
    {i : Inst} (hi : i ∈ unrollBody (l.expand q)) (hid : i.id ∉ forwardedIds items) :
    (replaceAll pairs i.op).Lawful layout := by
  obtain ⟨hv, hbuf⟩ := h.op hl
  have hlow := lowered_unrolled h hl hi
  have hcompute : ∀ accumulate,
      (replaceAll pairs (l.compute q accumulate)).Lawful layout := by
    intro accumulate
    rw [replaceAll_eq]
    exact compute_lawful hv hreg (hp.keepsTiles h hl) accumulate
  rcases hp.stays h hl hlow hid with hsame | ⟨-, accumulate, hop⟩ | ⟨t, t', -, hfree⟩
  · rw [hsame]
    by_cases hins : l.ins = []
    · cases l with
      | matmul lhs rhs dst =>
          exact matmul_lawful hv hreg (hbound.blocks lhs (by simp [Lowering.blocks]))
            (hbound.blocks rhs (by simp [Lowering.blocks]))
            (hbuf lhs (by simp [Lowering.operands])) (hbuf rhs (by simp [Lowering.operands])) hi
      | ewise | act | reduce => cases hins
    · cases hlow with
      | castIn | castOut | expand | tile | sub | sync | free => exact .silent rfl
      | @load k x t hx => exact load_lawful hv hreg hx (hbound.loads k x t hx hid)
      | subLoad hpos hx =>
          cases l with
          | matmul => exact absurd rfl hins
          | ewise | act | reduce => cases hx
      | @compute pos accumulate hpos =>
          have hlaw := hcompute accumulate
          rwa [show replaceAll pairs (l.compute q accumulate) = l.compute q accumulate from
            hsame] at hlaw
      | store => exact store_lawful hv hreg
  · rw [hop]
    exact hcompute accumulate
  · rw [hfree]
    exact .silent rfl

/-- **A body after the pass.** -/
theorem elided_lawful (hp : ForwardPairs items pairs) (h : BufferBody items)
    (hreg : ∀ l, Item.op l ∈ items → l.Regular)
    (hbound : ∀ q l, items[q]? = some (.op l) → SourcesBound layout items q l) {i : Inst}
    (hi : i ∈ (unrollBody (expandFrom 0 items)).filterMap (elideEdit items pairs erased)) :
    i.op.Lawful layout := by
  obtain ⟨j, hj, hedit⟩ := List.mem_filterMap.mp hi
  rw [elideEdit_eq] at hedit
  split_ifs at hedit with hkept
  cases hedit
  have hid : j.id ∉ forwardedIds items := (of_decide_eq_true hkept).1
  obtain ⟨q, item, hitem, hj⟩ := mem_expandFrom.mp hj
  rw [Nat.zero_add] at hj
  cases item with
  | define v =>
      obtain rfl := List.mem_singleton.mp hj
      dsimp only
      rw [replaceAll_define]
      exact .silent rfl
  | ret vs =>
      obtain rfl := List.mem_singleton.mp hj
      dsimp only
      rw [replaceAll_eq]
      exact .ret
  | op l =>
      exact item_lawful hp h hitem (hreg l (List.mem_of_getElem? hitem)) (hbound q l hitem)
        hj hid

end Bodies

end EclipseNpu.Compiler

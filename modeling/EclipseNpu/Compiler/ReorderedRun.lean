import EclipseNpu.Compiler.EasmFile
import EclipseNpu.Compiler.SyncPlacement
import EclipseNpu.Tools.OrderIndependence

/-!
# Compiler — ReorderedRun

What the SYNCs of a compiled stream are for. When they suffice, a machine may run the
instructions between two SYNCs in any order: it finishes when the stream does, and
its buffers hold what the lowered operations mean (`reordered_run_correct`).
-/

namespace EclipseNpu.Compiler

open EclipseNpu.Lib EclipseNpu.Runtime EclipseNpu.Tools

/-! ## Descriptors -/

section Descriptors

variable {d a b : UInt32} {rows cols r c m n : Nat}

/-- The rows of a whole tensor do not wrap. -/
theorem wholeTransfer_noWrap (h : WholeBuffers a b rows cols) :
    NoWrap (.dmaLoad d (wholeTransfer a b rows cols))
      ∧ NoWrap (.dmaStore d (wholeTransfer a b rows cols)) := by
  obtain ⟨hrows, -, hstride⟩ := h.fields
  have htile := h.tileIn.2
  have htensor := h.tensorIn.2
  rw [sramEnd_eq] at htile
  rw [ddrEnd_eq] at htensor
  have hend : ∀ i < rows, a.toNat + i * (UInt32.ofNat (cols * 2)).toNat < 4294967296
      ∧ b.toNat + i * (UInt32.ofNat (cols * 2)).toNat < 4294967296 := by
    intro i hi
    have hrow := row_le cols hi
    rw [hstride]
    omega
  constructor
  · intro i hi
    exact (hend i (hrows ▸ hi)).symm
  · intro i hi
    exact hend i (hrows ▸ hi)

/-- Nor do those of a block. -/
theorem subviewTransfer_noWrap (hm : 0 < m) (hn : 0 < n) (hr : r + m ≤ rows)
    (hc : c + n ≤ cols) (ha : InSram a.toNat (m * n)) (hb : InDdr b.toNat (rows * cols)) :
    NoWrap (.dmaLoad d (subviewTransfer a b cols r c m n 1)) := by
  have hend := hb.2
  have htile := ha.2
  rw [ddrEnd_eq] at hend
  rw [sramEnd_eq] at htile
  have hmn := Nat.le_mul_of_pos_right m hn
  have hnm := Nat.le_mul_of_pos_left n hm
  have hcols := Nat.le_mul_of_pos_left cols (show 0 < rows by omega)
  have hM : (UInt32.ofNat m).toNat = m := toNat_ofNat_small (by omega)
  have hS : (UInt32.ofNat (cols * 2)).toNat = cols * 2 := toNat_ofNat_small (by omega)
  have hD : (UInt32.ofNat (n * 2)).toNat = n * 2 := toNat_ofNat_small (by omega)
  have hstart : (subviewTransfer a b cols r c m n 1).ddrAddr.toNat
      = b.toNat + (r * cols + c) * 2 := by
    have h := @blockSrc_toNat rows cols m n r c a b 0 hm hr hc hn hb
    simpa [DMAParam.loadSrc] using h
  intro i hi
  change i < (UInt32.ofNat m).toNat at hi
  rw [hM] at hi
  have hrow := @block_row_le rows cols m n r c i hr hc hi
  have htrow := row_le n hi
  constructor
  · rw [hstart]
    change _ + i * (UInt32.ofNat (cols * 2)).toNat < _
    rw [hS]
    rw [Nat.add_mul] at hrow
    have : i * (cols * 2) = i * cols * 2 := by rw [Nat.mul_assoc]
    omega
  · change a.toNat + i * (UInt32.ofNat (n * 2)).toNat < _
    rw [hD]
    omega

theorem matmul_noWrap {p : MatmulParam} (h : p.Resident) :
    NoWrap (.matmul d p) := by
  have hdst := h.dst.2
  have hlhs := h.lhs.2
  have hrhs := h.rhs.2
  rw [sramEnd_eq] at hdst hlhs hrhs
  intro i hi j hj
  refine ⟨fun k hk => ?_, ?_⟩
  · have hl := lhsIndex_lt hi hk
    have hr := rhsIndex_lt hk hj
    omega
  · have := flat_lt hi hj
    omega

theorem act_noWrap {size : Nat} {kind : UInt32} (ha : InSram a.toNat size)
    (hb : InSram b.toNat size) : NoWrap (.act d ⟨b, a, UInt32.ofNat size, kind⟩) := by
  have haend := ha.2
  have hbend := hb.2
  rw [sramEnd_eq] at haend hbend
  intro i hi
  change i < (UInt32.ofNat size).toNat at hi
  rw [toNat_ofNat_small (by omega)] at hi
  dsimp only
  omega

theorem reduce_noWrap {i : UInt32} {kind : ReduceKind} (hcols : 0 < cols)
    (ha : InSram a.toNat (rows * cols)) (hb : InSram b.toNat rows)
    (hi : kind = .ARGMAX → InSram i.toNat (rows * 2)) :
    NoWrap (.reduce d ⟨b, i, a, UInt32.ofNat rows, UInt32.ofNat cols, kind.toU32⟩) := by
  have haend := ha.2
  have hbend := hb.2
  rw [sramEnd_eq] at haend hbend
  have hle := Nat.le_mul_of_pos_right rows hcols
  have hrows : (UInt32.ofNat rows).toNat = rows := toNat_ofNat_small (by omega)
  intro j hj
  change j < (UInt32.ofNat rows).toNat at hj
  refine ⟨fun k hk => ?_, ?_, fun hkind => ?_⟩
  · dsimp only at hk ⊢
    have hflat := flat_lt hj hk
    rw [toNat_mul_ofNat (by omega)] at hflat
    omega
  · dsimp only
    omega
  · have hargmax : kind = .ARGMAX := by
      cases kind with
      | ARGMAX => rfl
      | _ => cases hkind
    have hiend := (hi hargmax).2
    rw [sramEnd_eq] at hiend
    dsimp only
    omega

end Descriptors

/-! ## Lines -/

section Lines

variable {layout : Layout} {op : Op} {d : UInt32} {e : Emitted} {insts : List Inst}

/-- A line the checker's ranges are exact on. -/
abbrev Regular (x : EasmInsn) : Prop := StrideForm x ∧ NoWrap x

/-- The broadcast operand is read inside its tile. -/
theorem ewiseDesc_regular {kind : BinOp} {c a b : UInt32} {rows cols smallRows smallCols : Nat}
    (hok : smallShapeOk smallRows smallCols rows cols = true) (hrows : 0 < rows)
    (hcols : 0 < cols) (hsmall : 0 < smallRows * smallCols)
    (hc : InSram c.toNat (rows * cols)) (ha : InSram a.toNat (rows * cols))
    (hb : InSram b.toNat (smallRows * smallCols)) :
    Regular (.elementwise kind.mnemonic d (ewiseDesc c a b rows cols smallRows smallCols)) := by
  have hcend := hc.2
  have haend := ha.2
  have hbend := hb.2
  rw [sramEnd_eq] at hcend haend hbend
  have hstride : StrideForm (.elementwise kind.mnemonic d
      (ewiseDesc c a b rows cols smallRows smallCols)) := by
    by_cases hone : smallRows = 1
    · exact .inl (if_pos hone)
    · exact .inr (if_neg hone)
  obtain ⟨-, -, -, hn, -⟩ := @ewiseDesc_legal rows cols smallRows smallCols a b c hok hrows hcols
    (by omega) (by omega)
  have hcolsN : (UInt32.ofNat smallCols).toNat = smallCols :=
    toNat_ofNat_small (by
      have := Nat.le_mul_of_pos_left smallCols (Nat.pos_of_mul_pos_right hsmall)
      omega)
  have hrowsN : (UInt32.ofNat rows).toNat = rows := toNat_ofNat_small (by
    have := Nat.le_mul_of_pos_right rows hcols
    omega)
  have hshape := hok
  simp only [smallShapeOk, Bool.and_eq_true, decide_eq_true_eq] at hshape
  refine ⟨hstride, fun i hi => ?_⟩
  rw [hn] at hi
  have hsize : i < (UInt32.ofNat rows).toNat * (UInt32.ofNat cols).toNat := ewise_bound (p :=
    ewiseDesc c a b rows cols smallRows smallCols) (by rw [hn]; exact hi)
  have hrhs := @ewiseRhsIndex_lt (ewiseDesc c a b rows cols smallRows smallCols) i hsize (by
    show 0 < (UInt32.ofNat smallCols).toNat
    rw [hcolsN]
    exact hshape.1.1) hstride
  have hbound : (ewiseDesc c a b rows cols smallRows smallCols).rhsBlk.toNat
      * (if (ewiseDesc c a b rows cols smallRows smallCols).rhsStride ≠ 0
        then (ewiseDesc c a b rows cols smallRows smallCols).rows.toNat else 1)
      = smallRows * smallCols := by
    show (UInt32.ofNat smallCols).toNat * (if (if smallRows = 1 then 0
      else UInt32.ofNat smallCols) ≠ 0 then (UInt32.ofNat rows).toNat else 1) = _
    rw [hcolsN, hrowsN]
    by_cases hone : smallRows = 1
    · simp [hone]
    · have hne : UInt32.ofNat smallCols ≠ 0 := by
        intro hzero
        rw [hzero] at hcolsN
        exact absurd hcolsN.symm (Nat.ne_of_gt hshape.1.1)
      rw [if_neg hone, if_pos hne, hshape.2.resolve_left hone, Nat.mul_comm]
  rw [hbound] at hrhs
  exact ⟨by dsimp only [ewiseDesc]; omega, by dsimp only [ewiseDesc] at hrhs ⊢; omega,
    by dsimp only [ewiseDesc]; omega⟩

/-- **Every line of the compiler is regular.** -/
theorem Op.Lawful.regular (hp : layout.Placed) (h : op.Lawful layout)
    (he : emitOp layout d op = some e) : ∀ x ∈ e.1, Regular x := by
  cases h with
  | silent h =>
      cases op with
      | define | dealloc =>
          cases he
          simp
      | sync =>
          cases he
          exact fun x hx => List.mem_singleton.mp hx ▸ ⟨trivial, trivial⟩
      | _ => cases h
  | ret =>
      cases he
      simp
  | loadWhole hsource hx ht hrows hcols halign =>
      obtain ⟨a, b, ha, hb, rfl⟩ := emitOp_loadWhole hsource hx he
      have hwhole := hp.whole ha hb ht hx hrows hcols halign
      exact fun x hx => List.mem_singleton.mp hx ▸ ⟨trivial, (wholeTransfer_noWrap hwhole).1⟩
  | loadBlock hsource hx ht hr hc hm hn halign hblock =>
      obtain ⟨a, b, ha, hb, rfl⟩ := emitOp_loadBlock hsource hx he
      have htile := hp.sramIn _ a ha
      rw [ht.words] at htile
      obtain ⟨hddr, -⟩ := hp.ddrIn _ b hb (by
        rw [hx.words]
        exact Nat.mul_pos (by omega) (by omega))
      rw [hx.words] at hddr
      exact fun x hx => List.mem_singleton.mp hx
        ▸ ⟨trivial, subviewTransfer_noWrap hm hn hr hc htile hddr⟩
  | store hx ht hrows hcols halign =>
      obtain ⟨a, b, ha, hb, -, rfl⟩ := emitOp_store hx he
      have hwhole := hp.whole ha hb ht hx hrows hcols halign
      exact fun x hx => List.mem_singleton.mp hx ▸ ⟨trivial, (wholeTransfer_noWrap hwhole).2⟩
  | compute hv hpos hne =>
      have hin : ∀ {v : Value} {addr : UInt32}, layout.sramAddr? v = some addr →
          InSram addr.toNat v.type.words := fun hv => hp.sramIn _ _ hv
      cases op with
      | matmul lhs rhs dst accumulate transA transB =>
          obtain ⟨M, K, N, hs⟩ := matmulShapes_of_accepted hv
          obtain ⟨c, a, b, hc, ha, hb, rfl⟩ := emitMatmulOp_desc hs he
          obtain ⟨hlw, hrw, hdw⟩ := hs.words
          have hres : (matmulDesc c a b M K N accumulate transA transB).Resident :=
            ⟨inSram_ofNat (hdw ▸ hin hc), inSram_ofNat (hlw ▸ hin ha),
              inSram_ofNat (hrw ▸ hin hb)⟩
          exact fun x hx => List.mem_singleton.mp hx ▸ ⟨trivial, matmul_noWrap hres⟩
      | ewise kind lhs rhs dst =>
          obtain ⟨hd, hl, hr, hok⟩ := ewiseShapes_of_accepted hv
          obtain ⟨c, a, b, hc, ha, hb, rfl⟩ := emitEwise_desc hd hr he
          have hdw := hpos dst (by simp [Op.operands])
          have hrw := hpos rhs (by simp [Op.operands])
          rw [hd.words] at hdw
          rw [hr.words] at hrw
          refine fun x hx => List.mem_singleton.mp hx ▸ ewiseDesc_regular hok
            (Nat.pos_of_mul_pos_right hdw) (Nat.pos_of_mul_pos_left hdw) hrw ?_ ?_ ?_
          · exact hd.words ▸ hin hc
          · exact hl.words ▸ hin ha
          · exact hr.words ▸ hin hb
      | act kind src dst =>
          obtain ⟨hs, hd⟩ := actShapes_of_accepted hv
          obtain ⟨b, hb, he⟩ := Option.bind_eq_some_iff.mp he
          obtain ⟨a, ha, he⟩ := Option.bind_eq_some_iff.mp he
          cases he
          rw [hs.elements]
          exact fun x hx => List.mem_singleton.mp hx
            ▸ ⟨trivial, act_noWrap (hs.words ▸ hin ha) (hd.words ▸ hin hb)⟩
      | reduce kind src dst idx =>
          obtain ⟨hs, hd, hrows, hcols, hkind⟩ := reduceShapes_of_accepted hv
          obtain ⟨b, a, i, hb, ha, hi, rfl⟩ := emitReduceOp_desc hs he
          have hdst := hd.words ▸ hin hb
          rw [Nat.mul_one] at hdst
          refine fun x hx => List.mem_singleton.mp hx ▸ ⟨trivial,
            reduce_noWrap (by omega) (hs.words ▸ hin ha) hdst fun hk => ?_⟩
          rcases hkind with ⟨hne, -⟩ | ⟨v, -, rfl, hsize⟩
          · exact absurd hk hne
          · have hidx := hin hi
            rwa [MemRefType.words, hsize, Nat.mul_div_assoc _ (by decide)] at hidx
      | _ => cases hv

theorem emitInsts_regular (hp : layout.Placed) (hlaw : ∀ i ∈ insts, i.op.Lawful layout)
    (he : emitInsts layout d insts = some e) : ∀ x ∈ e.1, Regular x := by
  induction insts generalizing d e with
  | nil =>
      cases he
      simp
  | cons i is ih =>
      obtain ⟨e₁, e₂, h₁, h₂, rfl⟩ := emitInsts_cons he
      intro x hx
      rcases List.mem_append.mp hx with hx | hx
      · exact (hlaw i List.mem_cons_self).regular hp h₁ x hx
      · exact ih (fun j hj => hlaw j (List.mem_cons_of_mem i hj)) h₂ x hx

end Lines

/-! ## Streams -/

section Streams

variable {F : Type} [Fp32 F] {xs ys out : List EasmInsn}

/-- No two instructions of a segment touch what the other writes. -/
theorem independent_of_clean (hxs : WellPlaced xs) (hclean : Clean [] xs) :
    Segments EasmInsn.isSync (Independent EasmInsn.reads EasmInsn.writes) xs := by
  refine Segments.imp (fun x hx y hy hxy => ?_) hclean
  exact independent_of_noConflict (hxs.noWrap x hx) (hxs.noWrap y hy) (hxs.stride x hx)
    (hxs.stride y hy) hxy

/-- **`eclipse-run` on a reordered stream** ends as on the stream. -/
theorem runEasm_segments (hxs : WellPlaced xs) (hslots : SlotsApart xs)
    (hclean : Clean [] xs) (hre : SegmentReorder xs ys) (u u' : CModel) :
    runEasm F ys u = .ok u' ↔ runEasm F xs u = .ok u' := by
  have hmem : ∀ y ∈ ys, y ∈ xs := fun y hy => hre.perm.mem_iff.mpr hy
  obtain ⟨s, hload⟩ := loadDescs_total hslots.inside u
  have hown := loadDescs_ownDesc hslots.apart hload
  have hload' : loadDescs ys u = .ok s :=
    loadDescs_eq (fun y hy => hslots.inside y (hmem y hy)) (fun y hy => hown y (hmem y hy))
      fun l hl => ((loadDescs_ok hload).2 l fun x hx => hl x (hre.perm.mem_iff.mp hx)).symm
  rw [runEasm, runEasm, hload, hload', ok_bind, ok_bind,
    runStream_eq hslots.inside hown hxs.stores,
    runStream_eq (fun y hy => hslots.inside y (hmem y hy)) (fun y hy => hown y (hmem y hy))
      fun y hy z hz => hxs.stores y (hmem y hy) z (hmem z hz)]
  exact runAll_segments (runInsn F) EasmInsn.reads EasmInsn.writes hre
    (fun x _ => runInsn_footprint x) (independent_of_clean hxs hclean) s u'

variable {canonicalize : List Stmt → List Stmt} {args : List (Option MemRefType)}
  {src : List (Item LinalgOp)} {items : List (Item Lowering)} {layout : Layout}

theorem Compiles.wellPlaced (h : Compiles canonicalize args src items layout out) :
    WellPlaced out := by
  obtain ⟨-, hemit⟩ := eclipseCompile_eq h.converted h.compiled
  obtain ⟨e, he, rfl⟩ := Option.map_eq_some_iff.mp hemit
  have hregular := emitInsts_regular h.placed h.lawful he
  exact ⟨fun x hx => (hregular x hx).1, fun x hx => (hregular x hx).2, h.storesAvoid⟩

/-- **A compiled stream in any order its SYNCs allow.** When no matmul reads what the
operation right before it stores, the machine may choose the order inside each
segment: it finishes exactly when no lowered division meets a zero, and then every
buffer that is not elided holds the tensor the lowered operations mean. -/
theorem reordered_run_correct (h : Compiles canonicalize args src items layout out)
    (hs : layout.Separate) (hsync : SyncsSuffice items) (hre : SegmentReorder out ys)
    (u : CModel) :
    ((∃ u', runEasm F ys u = .ok u') ↔ DivisionsSafe F items (layout.tensor u))
      ∧ ∀ u', runEasm F ys u = .ok u' → ∀ v a, ddrBaseAddr layout v = some a →
        ¬ ElidedBuffer items v →
        layout.tensor u' v = meaning F items (layout.tensor u) v := by
  have hclean := (clean_compiled h.converted h.buffers h.canonical.kept h.compiled hs).mpr hsync
  have hsame := runEasm_segments (F := F) h.wellPlaced h.slots hclean hre u
  obtain ⟨hfin, hmeans⟩ := @Compiles.run F _ canonicalize args src items layout out h u
  refine ⟨(exists_congr hsame).trans hfin, fun u' hu' v a hv hnot => ?_⟩
  obtain ⟨t, ht, heq⟩ := hmeans u' ((hsame u').mp hu')
  have hlen := @length_meaning F _ items (layout.tensor u) h.buffers
    (fun w => length_wordsOf _ _) v
  rw [← heq v hnot] at hlen ⊢
  exact ht.tensor hv hlen

end Streams

/-! ### `y = exp (a + b)`, the two loads exchanged -/

def expSumSource : List (Item LinalgOp) :=
  [.define (chainAlloc 0 1 16),
    .op (.elementwise .Add (chainArg 0 1 16) (chainArg 1 1 16) (chainAlloc 0 1 16)),
    .define (chainAlloc 2 1 16),
    .op (.exp (chainAlloc 0 1 16) (chainAlloc 2 1 16)),
    .ret [chainAlloc 2 1 16]]

def expSum : List (Item Lowering) :=
  [.define (chainAlloc 0 1 16),
    .op (.ewise .Add (chainArg 0 1 16) (chainArg 1 1 16) (chainAlloc 0 1 16)),
    .define (chainAlloc 2 1 16),
    .op (.act .EXP (chainAlloc 0 1 16) (chainAlloc 2 1 16)),
    .ret [chainAlloc 2 1 16]]

def expSumArgs : List (Option MemRefType) := [some (f16Type 1 16), some (f16Type 1 16)]

/-- The first two lines exchanged, before the first SYNC. -/
def swapLoads : List EasmInsn → List EasmInsn
  | x :: y :: .sync :: xs => y :: x :: .sync :: xs
  | xs => xs

theorem swapLoads_reorder {xs : List EasmInsn}
    (h : (xs.take 2).all (fun x => !x.isSync) = true) : SegmentReorder xs (swapLoads xs) := by
  unfold swapLoads
  split
  · refine @Reorder.seg _ _ [_, _] [_, _] _ _ _ (.swap _ _ []) ?_ rfl (Reorder.refl _)
    simpa using h
  · exact Reorder.refl _

theorem safeToElide_expSum : SafeToElide expSum := by
  have hops : ∀ (q : Nat) (l : Lowering), expSum[q]? = some (.op l) →
      l.blocks = [] ∧ (l.target q).isBlockArg = false := by
    intro q l hl
    rcases q with _ | _ | _ | _ | _ | q <;> cases hl
    · exact ⟨rfl, rfl⟩
    · exact ⟨rfl, rfl⟩
  intro i x hes
  obtain ⟨l, hl, rfl⟩ := hes.store
  refine ⟨fun q m hm => ?_, fun harg => ?_⟩
  · rw [(hops q m hm).1]
    exact List.not_mem_nil
  · rw [(hops i l hl).2] at harg
    cases harg

theorem syncsSuffice_expSum : SyncsSuffice expSum := by
  intro j l hl i m _ hblock
  rcases j with _ | _ | _ | _ | _ | j <;> cases hl <;> cases hblock

theorem compiles_expSum : ∃ layout out,
    Compiles dropTwice expSumArgs expSumSource expSum layout out ∧ layout.Separate
      ∧ (out.take 2).all (fun x => !x.isSync) = true := by
  have hrun : ((eclipseCompile dropTwice expSumArgs expSumSource).any fun r =>
      decide (descriptorCount r.1 (compiledModule dropTwice expSumArgs expSum) ≤ 1020)
        && decide r.1.Separate && (r.2.take 2).all fun x => !x.isSync) = true := by
    decide +kernel
  obtain ⟨⟨layout, out⟩, hcompile, hrest⟩ := (Option.any_eq_true _ _).mp hrun
  rw [Bool.and_eq_true, Bool.and_eq_true] at hrest
  obtain ⟨⟨hqueue, hs⟩, hloads⟩ := hrest
  refine ⟨layout, out, ⟨rfl, by decide, safeToElide_expSum, ?_,
    ⟨by decide +kernel, by decide +kernel⟩, hcompile, ⟨by decide +kernel,
      sizesFit_of_small (by decide +kernel) (by decide +kernel), of_decide_eq_true hqueue⟩⟩,
    of_decide_eq_true hs, hloads⟩
  intro l hl
  simp only [expSum, List.mem_cons, List.not_mem_nil, or_false] at hl
  rcases hl with hl | hl | hl | hl | hl <;> cases hl
  · exact ⟨by decide, by decide⟩
  · exact ⟨by decide, by decide⟩

theorem reordered_run_correct_expSum : ∃ layout out,
    eclipseCompile dropTwice expSumArgs expSumSource = some (layout, out)
      ∧ ∀ u : CModel, ((∃ u', @runEasm Int Fp32.integers (swapLoads out) u = .ok u')
          ↔ @DivisionsSafe Int Fp32.integers expSum (layout.tensor u))
        ∧ ∀ u', @runEasm Int Fp32.integers (swapLoads out) u = .ok u' → ∀ v a,
          ddrBaseAddr layout v = some a → ¬ ElidedBuffer expSum v →
          layout.tensor u' v = @meaning Int Fp32.integers expSum (layout.tensor u) v := by
  obtain ⟨layout, out, h, hs, hloads⟩ := compiles_expSum
  exact ⟨layout, out, h.compiled, fun u => @reordered_run_correct Int Fp32.integers
    (swapLoads out) out dropTwice expSumArgs expSumSource expSum layout h hs syncsSuffice_expSum
    (swapLoads_reorder hloads) u⟩

end EclipseNpu.Compiler

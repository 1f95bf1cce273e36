import EclipseNpu.Compiler.MatmulTranspose
import EclipseNpu.Compiler.GoldenMirror

/-!
# Compiler — Assertions

Whether an operation the dialect accepts can fail an assertion of the
simulator, once its buffers are placed apart inside SRAM.
`verified_quiet_iff` has the answer: a reduction and an activation never do,
a matmul does when an operand is used twice or an empty tile stands inside
another one, and an elementwise operation does when it has no columns.
-/

namespace EclipseNpu.Compiler

open EclipseNpu.Lib EclipseNpu.Runtime

/-! ## Quiet runs -/

/-- The one assertion that depends on data. -/
def divisorText : String := "The divisor cannot be zero."

/-- The run fails no assertion but that on the divisor of DIV. -/
def Quiet {α : Type} (r : Except Fault α) : Prop :=
  ∀ msg, r = .error (.assertion msg) → msg = divisorText

theorem quiet_of_ok {α : Type} {r : Except Fault α} {a : α} (h : r = .ok a) :
    Quiet r := by
  rintro msg he
  rw [h] at he
  cases he

theorem quiet_bind {α β : Type} {r : Except Fault α} {f : α → Except Fault β}
    (hr : Quiet r) (hf : ∀ a, r = .ok a → Quiet (f a)) : Quiet (r >>= f) := by
  intro msg he
  cases r with
  | error e =>
      cases he
      exact hr msg rfl
  | ok a => exact hf a rfl msg he

/-- An assertion on the descriptor holds in a quiet run. -/
theorem quiet_assert_iff {α : Type} {c : Bool} {msg : String}
    {f : Unit → Except Fault α} (hmsg : msg ≠ divisorText) :
    Quiet (eclipseAssert c msg >>= f) ↔ c = true ∧ Quiet (f ()) := by
  cases c with
  | true => exact ⟨fun h => ⟨rfl, h⟩, fun h => h.2⟩
  | false => exact ⟨fun h => absurd (h msg rfl) hmsg, fun h => absurd h.1 (by decide)⟩

theorem quiet_forLoop {σ : Type} {n : Nat} {f : Nat → σ → Except Fault σ} {s : σ}
    (h : ∀ i < n, ∀ t, Quiet (f i t)) : Quiet (forLoop n f s) := by
  induction n with
  | zero => exact quiet_of_ok rfl
  | succ n ih =>
      rw [forLoop_succ]
      exact quiet_bind (ih fun i hi => h i (by omega)) fun t _ => h n (by omega) t

section Access

variable {F : Type} [Fp32 F] {addr : UInt32} {s : CModel}

theorem readFP16_quiet (h : 0x10000000 ≤ addr.toNat ∧ addr.toNat + 2 ≤ sramEnd) :
    Quiet (readFP16 F addr s) :=
  quiet_of_ok ((readFP16_ok_iff F).mpr ⟨h, rfl⟩)

theorem writeFP16_quiet {v : F}
    (h : 0x10000000 ≤ addr.toNat ∧ addr.toNat + 2 ≤ sramEnd) :
    Quiet (writeFP16 addr v s) :=
  quiet_of_ok ((writeFP16_ok_iff F).mpr ⟨h, rfl⟩)

/-- An element of a resident array. -/
theorem packedElem_range {base : UInt32} {n i : Nat} (h : InSram base.toNat n)
    (hi : i < n) :
    0x10000000 ≤ (packedElem base i).toNat
      ∧ (packedElem base i).toNat + 2 ≤ sramEnd := by
  obtain ⟨hlo, hhi⟩ := h
  have hend := sramEnd_eq
  rw [packedElem_toNat, elemAddr, Nat.mod_eq_of_lt (by omega)]
  omega

end Access

/-! ## One operation -/

/-- The condition on two tiles of a matmul: a tile used twice is empty, and an
empty tile does not stand inside the other one. -/
def Layout.TilesOk (layout : Layout) (v w : Value) : Prop :=
  (v = w → v.type.sizeInBytes = 0)
    ∧ (v ≠ w → ∀ a b, layout.sramAddr? v = some a → layout.sramAddr? w = some b →
      (v.type.sizeInBytes = 0 →
        ¬ (b.toNat < a.toNat ∧ a.toNat < b.toNat + w.type.sizeInBytes))
      ∧ (w.type.sizeInBytes = 0 →
        ¬ (a.toNat < b.toNat ∧ b.toNat < a.toNat + v.type.sizeInBytes)))

/-- **The condition on an accepted operation.** The widths of an elementwise
operation are those of its descriptor, in 32 bits. -/
def Op.AssertionFree (layout : Layout) : Op → Prop
  | .matmul lhs rhs dst _ _ _ =>
      layout.TilesOk lhs dst ∧ layout.TilesOk rhs dst ∧ layout.TilesOk lhs rhs
  | .ewise _ _ rhs dst =>
      UInt32.ofNat (dim dst 1) ≠ 0 ∧ UInt32.ofNat (dim rhs 1) ≠ 0
        ∧ UInt32.ofNat (dim dst 1) % UInt32.ofNat (dim rhs 1) = 0
  | _ => True

section Ops

variable {F : Type} [Fp32 F] {layout : Layout} {descAddr next : UInt32}
  {x : EasmInsn} {s : CModel}

/-- Two placed tiles are in order exactly under the condition. -/
theorem tilesOk_iff {v w : Value} {a b : UInt32} {m n : Nat}
    (hv : v.type.sizeInBytes = m * 2) (hw : w.type.sizeInBytes = n * 2)
    (ha : layout.sramAddr? v = some a) (hb : layout.sramAddr? w = some b)
    (hdis : v ≠ w → Apart (v, a) (w, b)) :
    layout.TilesOk v w ↔ ArraysApart a.toNat m b.toNat n := by
  unfold Layout.TilesOk ArraysApart
  by_cases heq : v = w
  · subst heq
    rw [ha] at hb
    cases hb
    rw [hv]
    constructor
    · rintro ⟨h, -⟩
      have := h rfl
      omega
    · exact fun h => ⟨fun _ => by omega, fun hne => absurd rfl hne⟩
  · have hmiss := apart_iff.mp (hdis heq)
    unfold Misses at hmiss
    rw [hv, hw]
    dsimp only at hmiss
    rw [hv, hw] at hmiss
    constructor
    · rintro ⟨-, h⟩
      have := h heq a b ha hb
      omega
    · refine fun h => ⟨fun he => absurd he heq, fun _ a' b' ha' hb' => ?_⟩
      rw [ha] at ha'
      rw [hb] at hb'
      cases ha'
      cases hb'
      omega

theorem matmul_quiet_iff {lhs rhs dst : Value} {accumulate transA transB : Bool}
    (hv : (Op.matmul lhs rhs dst accumulate transA transB).accepted = true)
    (hres : layout.Resident [lhs, rhs, dst]) (hdis : layout.Disjoint [lhs, rhs, dst])
    (hemit : emitMatmulOp layout descAddr lhs rhs dst accumulate transA transB
      = some ([x], next)) :
    Quiet (runInsn F x s)
      ↔ (Op.matmul lhs rhs dst accumulate transA transB).AssertionFree layout := by
  obtain ⟨M, K, N, hs⟩ := matmulShapes_of_accepted hv
  obtain ⟨dstAddr, lhsAddr, rhsAddr, hdst, hlhs, hrhs, he⟩ :=
    emitMatmulOp_desc hs hemit
  cases he
  have hparam := matmulDesc_resident accumulate hs hres hdst hlhs hrhs
  have hMK := (hres.array (by simp) hlhs hs.lhs_size).2
  have hKN := (hres.array (by simp) hrhs hs.rhs_size).2
  have hMN := (hres.array (by simp) hdst hs.dst.size).2
  rw [sramEnd_eq] at hMK hKN hMN
  have hfree : (Op.matmul lhs rhs dst accumulate transA transB).AssertionFree layout
      ↔ (matmulDesc dstAddr lhsAddr rhsAddr M K N accumulate transA transB).Apart := by
    show _ ∧ _ ∧ _ ↔ _
    rw [tilesOk_iff hs.lhs_size hs.dst.size hlhs hdst
        (fun h => hdis _ (by simp) _ (by simp) h _ _ hlhs hdst),
      tilesOk_iff hs.rhs_size hs.dst.size hrhs hdst
        (fun h => hdis _ (by simp) _ (by simp) h _ _ hrhs hdst),
      tilesOk_iff hs.lhs_size hs.rhs_size hlhs hrhs
        (fun h => hdis _ (by simp) _ (by simp) h _ _ hlhs hrhs),
      ← toNat_mul_ofNat (m := M) (n := K) (by omega),
      ← toNat_mul_ofNat (m := K) (n := N) (by omega),
      ← toNat_mul_ofNat (m := M) (n := N) (by omega)]
    exact ⟨fun ⟨h1, h2, h3⟩ => ⟨h1, h2, h3⟩, fun ⟨h1, h2, h3⟩ => ⟨h1, h2, h3⟩⟩
  rw [hfree]
  show Quiet (matmul F _ s) ↔ _
  rw [matmul, quiet_assert_iff (by decide), ← hparam.noOverlap_iff]
  refine ⟨fun h => h.1, fun h => ⟨h, ?_⟩⟩
  obtain ⟨s', hs', -⟩ := matmul_resident (F := F) (s := s) hparam
    (hparam.noOverlap_iff.mp h)
  rw [matmul, h] at hs'
  exact quiet_of_ok hs'

/-! ### ELEMENTWISE -/

theorem emitEwise_desc {kind : BinOp} {lhs rhs dst : Value}
    {rows cols rhsRows rhsCols : Nat} {e : Emitted}
    (hd : F16Shape dst rows cols) (hr : F16Shape rhs rhsRows rhsCols)
    (h : emitEwise layout descAddr kind lhs rhs dst = some e) :
    ∃ dstAddr lhsAddr rhsAddr, layout.sramAddr? dst = some dstAddr
      ∧ layout.sramAddr? lhs = some lhsAddr ∧ layout.sramAddr? rhs = some rhsAddr
      ∧ e = emitLine (.elementwise kind.mnemonic descAddr
        (ewiseDesc dstAddr lhsAddr rhsAddr rows cols rhsRows rhsCols)) descAddr := by
  obtain ⟨dstAddr, hdst, h⟩ := Option.bind_eq_some_iff.mp h
  obtain ⟨lhsAddr, hlhs, h⟩ := Option.bind_eq_some_iff.mp h
  obtain ⟨rhsAddr, hrhs, h⟩ := Option.bind_eq_some_iff.mp h
  obtain ⟨d0, hd0, h⟩ := Option.bind_eq_some_iff.mp h
  obtain ⟨d1, hd1, h⟩ := Option.bind_eq_some_iff.mp h
  obtain ⟨r0, hr0, h⟩ := Option.bind_eq_some_iff.mp h
  obtain ⟨r1, hr1, h⟩ := Option.bind_eq_some_iff.mp h
  cases h
  rw [MemRefType.dim?, hd.shape] at hd0 hd1
  rw [MemRefType.dim?, hr.shape] at hr0 hr1
  cases hd0
  cases hd1
  cases hr0
  cases hr1
  exact ⟨dstAddr, lhsAddr, rhsAddr, hdst, hlhs, hrhs, rfl⟩

/-- The cells of an elementwise operation on resident operands. -/
theorem ewiseCells_quiet {dst lhs rhs : UInt32} {rows cols rhsRows rhsCols : Nat}
    (op : EwiseOp) (hok : smallShapeOk rhsRows rhsCols rows cols = true)
    (hdst : InSram dst.toNat (rows * cols)) (hlhs : InSram lhs.toNat (rows * cols))
    (hrhs : InSram rhs.toNat (rhsRows * rhsCols)) :
    Quiet (forLoop (UInt32.ofNat rows * UInt32.ofNat cols).toNat
      (ewiseCell F (ewiseDesc dst lhs rhs rows cols rhsRows rhsCols) op) s) := by
  have hbig := hdst.2
  have hsmall := hrhs.2
  rw [sramEnd_eq] at hbig hsmall
  refine quiet_forLoop fun i hi t => ?_
  rw [UInt32.toNat_mul, toNat_mul_ofNat (by omega), Nat.mod_eq_of_lt (by omega)] at hi
  obtain ⟨r, hr, c, hc, rfl⟩ := flat_exists hi
  have hindex := rhsIndex_ewiseDesc dst lhs rhs hok hr hc (by omega)
    (by omega)
  have hplace := packedElem_range hrhs (smallPosition_lt (c := c) hok hr)
  rw [← hindex, packedElem, UInt32.ofNat_toNat] at hplace
  refine quiet_bind (quiet_bind (readFP16_quiet (packedElem_range hlhs hi)) fun a _ =>
    quiet_bind (readFP16_quiet hplace) fun b _ => ?_) fun v _ =>
    writeFP16_quiet (packedElem_range hdst hi)
  -- only DIV asserts, and only on its divisor
  intro msg he
  split at he
  · cases hz : (!Fp32.eq b (Fp32.zero : F)) with
    | true =>
        rw [hz] at he
        cases he
    | false =>
        rw [hz] at he
        cases he
        rfl
  · cases he

theorem ewise_quiet_iff {kind : BinOp} {lhs rhs dst : Value}
    (hv : (Op.ewise kind lhs rhs dst).accepted = true)
    (hres : layout.Resident [lhs, rhs, dst])
    (hemit : emitEwise layout descAddr kind lhs rhs dst = some ([x], next)) :
    Quiet (runInsn F x s) ↔ (Op.ewise kind lhs rhs dst).AssertionFree layout := by
  obtain ⟨hsd, hsl, hsr, hok⟩ := ewiseShapes_of_accepted hv
  obtain ⟨dstAddr, lhsAddr, rhsAddr, hdst, hlhs, hrhs, he⟩ :=
    emitEwise_desc hsd hsr hemit
  cases he
  have hcells := ewiseCells_quiet (F := F) (s := s) kind.mnemonic hok
    (hres.array (by simp) hdst hsd.size) (hres.array (by simp) hlhs hsl.size)
    (hres.array (by simp) hrhs hsr.size)
  show Quiet (elementwise F _ kind.mnemonic s) ↔ _
  rw [elementwise, quiet_assert_iff (by decide), quiet_assert_iff (by decide)]
  simp only [ewiseDesc, Bool.and_eq_true, bne_iff_ne, beq_iff_eq, and_assoc]
  constructor
  · intro h
    exact ⟨h.1, h.2.1, h.2.2.1⟩
  · intro h
    exact ⟨h.1, h.2.1, h.2.2, hcells⟩

/-! ### ACT -/

theorem act_quiet {kind : ActKind} {src dst : Value}
    (hv : (Op.act kind src dst).accepted = true)
    (hres : layout.Resident [src, dst])
    (hemit : emitActOp layout descAddr kind src dst = some ([x], next)) :
    Quiet (runInsn F x s) := by
  obtain ⟨hss, hsd⟩ := actShapes_of_accepted hv
  obtain ⟨dstAddr, hdst, h⟩ := Option.bind_eq_some_iff.mp hemit
  obtain ⟨srcAddr, hsrc, h⟩ := Option.bind_eq_some_iff.mp h
  cases h
  have hsrcIn := hres.array (by simp) hsrc hss.size
  have hdstIn := hres.array (by simp) hdst hsd.size
  have hend := hsrcIn.2
  rw [sramEnd_eq] at hend
  have hn : src.type.numElements = dim src 0 * dim src 1 := by
    rw [MemRefType.numElements, hss.shape]
    simp
  show Quiet (act F _ s)
  rw [act, ActKind.ofU32?_toU32]
  refine quiet_forLoop fun i hi t => ?_
  dsimp only at hi
  rw [hn, toNat_ofNat_small (by omega)] at hi
  exact quiet_bind (readFP16_quiet (packedElem_range hsrcIn hi)) fun v _ =>
    writeFP16_quiet (packedElem_range hdstIn hi)

/-! ### REDUCE -/

/-- One row of a reduction of resident buffers. -/
theorem reduceCell_quiet {p : ReduceParam} {kind : ReduceKind} {i : Nat}
    (hsrc : InSram p.srcAddr.toNat (p.rows.toNat * p.cols.toNat))
    (hdst : InSram p.dstAddr.toNat p.rows.toNat)
    (hidx : kind = .ARGMAX → 0x10000000 ≤ p.idxAddr.toNat
      ∧ p.idxAddr.toNat + p.rows.toNat * 4 ≤ sramEnd)
    (hcols : 0 < p.cols.toNat) (hi : i < p.rows.toNat) :
    Quiet (reduceCell F p kind i s) := by
  have helem : ∀ j < p.cols.toNat, 0x10000000 ≤ (p.srcElem i j).toNat
      ∧ (p.srcElem i j).toNat + 2 ≤ sramEnd := fun j hj => by
    rw [srcElem_eq]
    exact packedElem_range hsrc (flat_lt hi hj)
  refine quiet_bind (quiet_bind (readFP16_quiet ?_) fun a _ => quiet_forLoop
    fun j hj acc => quiet_bind (readFP16_quiet (helem (j + 1) (by omega)))
      fun b _ => quiet_of_ok rfl) fun r _ =>
    quiet_bind (writeFP16_quiet (packedElem_range hdst hi)) fun t _ => ?_
  · rw [rowAddr_eq]
    exact helem 0 hcols
  · split
    · rename_i hargmax
      obtain ⟨hlo, hhi⟩ := hidx hargmax
      have hend := sramEnd_eq
      have hplace : (p.idxAddr + UInt32.ofNat i * 4).toNat
          = p.idxAddr.toNat + i * 4 := by
        rw [idxPlace_toNat, elemAddr, Nat.mod_eq_of_lt (by omega)]
      have hptr : CModel.sram (p.idxAddr + UInt32.ofNat i * 4)
          = .ok (p.idxAddr.toNat + i * 4) :=
        sram_ok_iff.mpr ⟨hplace.symm, by omega, by omega⟩
      have hspan : sramSpan (p.idxAddr.toNat + i * 4) 4 = .ok () :=
        sramSpan_ok_iff.mpr (.inr (by omega))
      rw [hptr, ok_bind, hspan, ok_bind]
      exact quiet_of_ok rfl
    · exact quiet_of_ok rfl

theorem emitReduceOp_desc {kind : ReduceKind} {src dst : Value} {idx : Option Value}
    {rows cols : Nat} {e : Emitted} (hs : F16Shape src rows cols)
    (h : emitReduceOp layout descAddr kind src dst idx = some e) :
    ∃ dstAddr srcAddr idxAddr, layout.sramAddr? dst = some dstAddr
      ∧ layout.sramAddr? src = some srcAddr ∧ layout.idxAddr? idx = some idxAddr
      ∧ e = emitLine (.reduce descAddr ⟨dstAddr, idxAddr, srcAddr, UInt32.ofNat rows,
        UInt32.ofNat cols, kind.toU32⟩) descAddr := by
  obtain ⟨dstAddr, hdst, h⟩ := Option.bind_eq_some_iff.mp h
  obtain ⟨srcAddr, hsrc, h⟩ := Option.bind_eq_some_iff.mp h
  obtain ⟨s0, hs0, h⟩ := Option.bind_eq_some_iff.mp h
  obtain ⟨s1, hs1, h⟩ := Option.bind_eq_some_iff.mp h
  obtain ⟨idxAddr, hidx, h⟩ := Option.bind_eq_some_iff.mp h
  cases h
  rw [MemRefType.dim?, hs.shape] at hs0 hs1
  cases hs0
  cases hs1
  exact ⟨dstAddr, srcAddr, idxAddr, hdst, hsrc, hidx, rfl⟩

theorem reduce_quiet {kind : ReduceKind} {src dst : Value} {idx : Option Value}
    (hv : (Op.reduce kind src dst idx).accepted = true)
    (hres : layout.Resident ([src, dst] ++ idx.toList))
    (hemit : emitReduceOp layout descAddr kind src dst idx = some ([x], next)) :
    Quiet (runInsn F x s) := by
  obtain ⟨hss, hsd, hrows, hcols, hkind⟩ := reduceShapes_of_accepted hv
  obtain ⟨dstAddr, srcAddr, idxAddr, hdst, hsrc, hidx, he⟩ := emitReduceOp_desc hss hemit
  cases he
  have hsrcIn := hres.array (by simp) hsrc hss.size
  have hdstIn := hres.array (by simp) hdst hsd.size
  have hend := hsrcIn.2
  rw [sramEnd_eq] at hend
  have hle := Nat.le_mul_of_pos_right (dim src 0) (Nat.pos_of_ne_zero hcols)
  have hle' := Nat.le_mul_of_pos_left (dim src 1) (Nat.pos_of_ne_zero hrows)
  have hr : (UInt32.ofNat (dim src 0)).toNat = dim src 0 := toNat_ofNat_small (by omega)
  have hc : (UInt32.ofNat (dim src 1)).toNat = dim src 1 := toNat_ofNat_small (by omega)
  -- an index has an address in SRAM, and ARGMAX alone has an index
  have hindex : (kind = .ARGMAX ↔ idxAddr ≠ 0) ∧ (kind = .ARGMAX →
      0x10000000 ≤ idxAddr.toNat ∧ idxAddr.toNat + dim src 0 * 4 ≤ sramEnd) := by
    rcases hkind with ⟨hne, rfl⟩ | ⟨i, rfl, rfl, hsize⟩
    · cases hidx
      exact ⟨⟨fun h => absurd h hne, fun h => absurd rfl h⟩, fun h => absurd h hne⟩
    · obtain ⟨hlo, hhi⟩ := hres i (by simp) idxAddr hidx
      dsimp only at hlo hhi
      rw [hsize] at hhi
      refine ⟨⟨fun _ hz => ?_, fun _ => rfl⟩, fun _ => ⟨hlo, hhi⟩⟩
      rw [hz] at hlo
      exact absurd hlo (by decide)
  have htag : (kind.toU32 = ReduceKind.ARGMAX.toU32) ↔ kind = .ARGMAX := by
    cases kind <;> decide
  have hnonzero : (UInt32.ofNat (dim src 0) != 0 && UInt32.ofNat (dim src 1) != 0)
      = true := by
    simp only [Bool.and_eq_true, bne_iff_ne]
    refine ⟨fun h => hrows ?_, fun h => hcols ?_⟩
    · rw [← hr, h]
      rfl
    · rw [← hc, h]
      rfl
  show Quiet (reduce F _ s)
  rw [reduce, quiet_assert_iff (by decide), quiet_assert_iff (by decide)]
  refine ⟨hnonzero, ?_, ?_⟩
  · simp only [beq_iff_eq, htag, hindex.1]
    by_cases h : idxAddr = 0 <;> simp [h]
  · rw [ReduceKind.ofU32?_toU32]
    refine quiet_forLoop fun i hi t => reduceCell_quiet ?_ ?_ ?_ ?_ hi
    · dsimp only
      rw [hr, hc]
      exact hsrcIn
    · dsimp only
      rw [hr, ← Nat.mul_one (dim src 0)]
      exact hdstIn
    · dsimp only
      rw [hr]
      exact hindex.2
    · dsimp only
      omega

/-- **When an accepted operation fails no assertion.** Its buffers stand apart
inside SRAM and its descriptor is the emitted one; whatever the memory holds,
no assertion but that on a divisor fires, exactly under `AssertionFree`. -/
theorem verified_quiet_iff {op : Op} (hv : op.accepted = true)
    (hres : layout.Resident op.operands) (hdis : layout.Disjoint op.operands)
    (hemit : emitOp layout descAddr op = some ([x], next))
    (hslot : SlotInDdr x) (hown : OwnDesc x s) :
    Quiet (exec F x.toInstruction s) ↔ op.AssertionFree layout := by
  cases op with
  | matmul lhs rhs dst acc ta tb =>
      obtain ⟨p, he⟩ := emitMatmulOp_eq hemit
      cases he
      rw [exec_toInstruction hslot hown (StoreAvoids.of_notStore nofun)]
      exact matmul_quiet_iff hv hres hdis hemit
  | ewise kind lhs rhs dst =>
      obtain ⟨p, he⟩ := emitEwise_eq hemit
      cases he
      rw [exec_toInstruction hslot hown (StoreAvoids.of_notStore nofun)]
      exact ewise_quiet_iff hv hres hemit
  | act kind src dst =>
      obtain ⟨p, he⟩ := emitActOp_eq hemit
      cases he
      rw [exec_toInstruction hslot hown (StoreAvoids.of_notStore nofun)]
      exact iff_of_true (act_quiet hv hres hemit) trivial
  | reduce kind src dst idx =>
      obtain ⟨p, he⟩ := emitReduceOp_eq hemit
      cases he
      rw [exec_toInstruction hslot hown (StoreAvoids.of_notStore nofun)]
      exact iff_of_true (reduce_quiet hv hres hemit) trivial
  | _ => cases hv

end Ops

/-! ## A column added, and a matrix squared -/

section Decide

variable (layout : Layout) (vs : List Value)

theorem forall_addr_iff {o : Option UInt32} {P : UInt32 → Prop} [DecidablePred P] :
    o.all (fun a => decide (P a)) = true ↔ ∀ a, o = some a → P a := by
  simp only [Option.all_eq_true, decide_eq_true_eq]

/-- The addresses of the buffers, checked one by one. -/
instance : Decidable (layout.Resident vs) :=
  decidable_of_iff (∀ v ∈ vs, (layout.sramAddr? v).all (fun addr =>
      decide (SRAM_ADDR.toNat ≤ addr.toNat
        ∧ addr.toNat + v.type.sizeInBytes ≤ sramEnd)) = true)
    (by simp only [forall_addr_iff]; exact Iff.rfl)

instance (b c : Value × UInt32) : Decidable (Apart b c) :=
  decidable_of_iff _ apart_iff.symm

instance : Decidable (layout.Disjoint vs) :=
  decidable_of_iff (∀ v ∈ vs, ∀ w ∈ vs, v ≠ w → (layout.sramAddr? v).all (fun a =>
      decide ((layout.sramAddr? w).all (fun b =>
        decide (Apart (v, a) (w, b))) = true)) = true)
    (by
      simp only [forall_addr_iff]
      exact ⟨fun h v hv w hw hne a b ha hb => h v hv w hw hne a ha b hb,
        fun h v hv w hw hne a ha b hb => h v hv w hw hne a b ha hb⟩)

end Decide

def addColumnOp : Op :=
  .ewise .Add (tileIn 0 0 (f16Type 2 2)) (tileIn 0 1 (f16Type 2 1))
    (tileOut 0 (f16Type 2 2))

theorem verified_quiet_iff_addColumn :
    Quiet (@exec Int Fp32.integers addColumnLine.toInstruction addColumnState) :=
  (@verified_quiet_iff Int Fp32.integers addColumnLayout DESC_STARTADDR
    (DESC_STARTADDR + DESC_LEN) addColumnLine addColumnState addColumnOp
    (by decide +kernel) (by decide +kernel) (by decide +kernel) (by decide +kernel)
    (fun _ => by decide)
    (fun k hk => by revert k; decide +kernel)).mpr
    ⟨by decide, by decide, by decide⟩

/-- `A` times itself, and its tiles. -/
def squareMatmul : Op :=
  .matmul (sramBuffer 0 2 2) (sramBuffer 0 2 2) (sramBuffer 1 2 2) false false false

def squareLayout : Layout :=
  [(sramBuffer 0 2 2, .sram 0x10000000), (sramBuffer 1 2 2, .sram 0x10000020)]

def squareInsn : EasmInsn :=
  .matmul DESC_STARTADDR (matmulDesc 0x10000020 0x10000000 0x10000000 2 2 2 false
    false false)

/-- Acceptance does not keep the overlap assertion from firing, also on a
layout whose buffers are aligned. -/
theorem accepted_not_quiet :
    ¬ ∀ (op : Op) (layout : Layout) (x : EasmInsn) (next : UInt32) (s : CModel),
      op.accepted = true → layout.Resident op.operands → layout.Disjoint op.operands →
      (∀ v ∈ op.operands, (layout.sramAddr? v).all fun a =>
        decide (a.toNat % SRAM_ALIGNMENT = 0)) →
      emitOp layout DESC_STARTADDR op = some ([x], next) → SlotInDdr x →
      OwnDesc x s → Quiet (@exec Int Fp32.integers x.toInstruction s) := by
  intro h
  have hquiet := h squareMatmul squareLayout squareInsn (DESC_STARTADDR + DESC_LEN)
    (withDesc squareInsn) (by decide +kernel) (by decide +kernel) (by decide +kernel)
    (by decide +kernel) (by decide +kernel) (fun _ => by decide) (ownDesc_withDesc _)
  have hrun : outcome (@exec Int Fp32.integers squareInsn.toInstruction
      (withDesc squareInsn))
      = some (.assertion "matmul: dst/lhs/rhs must not overlap") := by decide +kernel
  exact absurd (hquiet _ (outcome_error hrun)) (by decide)

end EclipseNpu.Compiler

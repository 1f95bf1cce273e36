import EclipseNpu.Compiler.Assertions
import EclipseNpu.Compiler.BodyMemory
import EclipseNpu.Compiler.MatmulEndToEnd
import EclipseNpu.Compiler.TransferLines
import EclipseNpu.Runtime.ReduceContract

/-!
# Compiler — MachineOps

The arithmetic of the simulator as `TileOps`, and what one line does to a memory
that holds a body state: it finishes in a memory that holds the next body state,
but for a DIV by zero.
-/

namespace EclipseNpu.Compiler

open EclipseNpu.Lib EclipseNpu.Runtime

/-! ## Arithmetic -/

def MemRefType.extent (t : MemRefType) (i : Nat) : Nat := t.shape.getD i 0

/-- Halfword `i` of an index, the low one first. -/
def halfword (x : UInt32) (i : Nat) : UInt16 :=
  UInt16.ofNat (if i = 0 then x.toNat else x.toNat / 65536)

section Arithmetic

variable (F : Type) [Fp32 F]

/-- Element `i` of MATMUL. -/
def matmulWord (M K N : Nat) (accumulate transA transB : Bool) (a b c : Contents) (i : Nat) :
    UInt16 :=
  let sum := dotProduct F
    (fun k => a.getD (if transA then k * M + i / N else i / N * K + k) 0)
    (fun k => b.getD (if transB then i % N * K + k else k * N + i % N) 0) K
  Fp32.fp32ToFp16 (if accumulate then Fp32.add sum (Fp32.fp16ToFp32 (c.getD i 0)) else sum)

/-- Element `i` of an elementwise operation. -/
def ewiseWord (kind : BinOp) (cols rhsRows rhsCols : Nat) (a b : Contents) (i : Nat) : UInt16 :=
  Fp32.fp32ToFp16 (kind.mnemonic.eval F (Fp32.fp16ToFp32 (a.getD i 0))
    (Fp32.fp16ToFp32 (b.getD (smallPosition rhsRows rhsCols (i / cols) (i % cols)) 0)))

def actWord (kind : ActKind) (a : Contents) (i : Nat) : UInt16 :=
  Fp32.fp32ToFp16 (kind.eval F (Fp32.fp16ToFp32 (a.getD i 0)))

/-- What row `r` of a reduction ends with. -/
def reduceRowOf (kind : ReduceKind) (cols : Nat) (a : Contents) (r : Nat) : ValueIndex F :=
  kind.fold F (fun j => a.getD (r * cols + j) 0) (cols - 1)

/-- **The arithmetic of the simulator.** -/
def machineOps : TileOps where
  matmul lhs rhs dst accumulate transA transB a b c := wordsOf dst.numElements
    (matmulWord F (dst.extent 0) (if transA then lhs.extent 0 else lhs.extent 1)
      (if transB then rhs.extent 0 else rhs.extent 1) accumulate transA transB a b c)
  ewise kind _ rhs dst a b := wordsOf dst.numElements
    (ewiseWord F kind (dst.extent 1) (rhs.extent 0) (rhs.extent 1) a b)
  act kind _ dst a := wordsOf dst.numElements (actWord F kind a)
  reduce kind src dst a := wordsOf dst.numElements fun r =>
    Fp32.fp32ToFp16 (reduceRowOf F kind (src.extent 1) a r).value
  index kind src _ a := wordsOf (src.extent 0 * 2) fun i =>
    halfword (reduceRowOf F kind (src.extent 1) a (i / 2)).index (i % 2)
  matmul_length _ _ _ _ _ _ _ _ _ := length_wordsOf _ _
  ewise_length _ _ _ _ _ _ := length_wordsOf _ _
  act_length _ _ _ _ := length_wordsOf _ _
  reduce_length _ _ _ _ := length_wordsOf _ _

/-- **No divisor is zero**: what DIV asserts of every element it reads. -/
def Op.DivisorsNonzero (s : BodyState) : Op → Prop
  | .ewise .Div _ rhs dst => ∀ i < dst.type.numElements, Fp32.eq
      (Fp32.fp16ToFp32 ((s.sram rhs).getD (smallPosition (rhs.type.extent 0)
        (rhs.type.extent 1) (i / dst.type.extent 1) (i % dst.type.extent 1)) 0) : F)
      Fp32.zero = false
  | _ => True

end Arithmetic

/-! ## Shapes -/

variable {F : Type} [Fp32 F] {layout : Layout} {d : UInt32}

section Shapes

variable {v : Value} {rows cols : Nat}

theorem F16Shape.words (h : F16Shape v rows cols) : v.type.words = rows * cols := by
  rw [MemRefType.words, h.size, Nat.mul_div_cancel _ (by decide)]

theorem F16Shape.elements (h : F16Shape v rows cols) : v.type.numElements = rows * cols := by
  rw [MemRefType.numElements, h.shape, List.prod_cons, List.prod_singleton]

theorem F16Shape.extents (h : F16Shape v rows cols) :
    v.type.extent 0 = rows ∧ v.type.extent 1 = cols := by
  rw [MemRefType.extent, MemRefType.extent, h.shape]
  exact ⟨rfl, rfl⟩

end Shapes

/-! ## Transfers -/

section Transfers

variable {x t : Value} {id id' : OpId} {rows cols m n r c : Nat} {e : Emitted} {a b : UInt32}

/-- The source of a load that is not dropped: an argument or an alloc in DDR. -/
def Layout.isSource (layout : Layout) (x : Value) : Bool := x.isBlockArg || layout.isAllocOp x

theorem isSource_root (h : layout.isSource x = true) : x.isWhole = true ∧ x.root = x := by
  cases x with
  | blockArg | alloc => exact ⟨rfl, rfl⟩
  | _ => cases h

theorem isSource_kept (h : layout.isSource x = true) :
    (!x.isBlockArg && !layout.isAllocOp x) = false := by
  rw [Layout.isSource] at h
  rw [← Bool.not_or, h]
  rfl

theorem emitOp_loadWhole (hsource : layout.isSource x = true) (hx : F16Shape x rows cols)
    (he : emitOp layout d (.dmaLoad (toDDR id x) t) = some e) :
    ∃ a b, layout.sramAddr? t = some a ∧ ddrBaseAddr layout x = some b
      ∧ e = emitLine (.dmaLoad d (wholeTransfer a b rows cols)) d := by
  obtain ⟨a, ha, he⟩ := Option.bind_eq_some_iff.mp he
  dsimp only [toDDR] at he
  rw [isSource_kept hsource, if_neg Bool.false_ne_true] at he
  obtain ⟨b, hb, he⟩ := Option.bind_eq_some_iff.mp he
  obtain ⟨i, hi, he⟩ := Option.bind_eq_some_iff.mp he
  obtain ⟨j, hj, he⟩ := Option.bind_eq_some_iff.mp he
  simp only [MemRefType.dim?, hx.shape] at hi hj
  cases hi
  cases hj
  cases he
  exact ⟨a, b, ha, hb, rfl⟩

theorem emitOp_loadBlock (hsource : layout.isSource x = true) (hx : F16Shape x rows cols)
    (he : emitOp layout d (.dmaLoad (.subView id (toDDR id' x) [.const r, .const c] [m, n]
      [1, 1]) t) = some e) :
    ∃ a b, layout.sramAddr? t = some a ∧ ddrBaseAddr layout x = some b
      ∧ e = emitLine (.dmaLoad d (subviewTransfer a b cols r c m n 1)) d := by
  obtain ⟨a, ha, he⟩ := Option.bind_eq_some_iff.mp he
  dsimp only [toDDR] at he
  rw [isSource_kept hsource, if_neg Bool.false_ne_true] at he
  obtain ⟨b, hb, he⟩ := Option.bind_eq_some_iff.mp he
  simp only [List.getElem?_cons_zero, List.getElem?_cons_succ, Option.bind_some,
    IndexValue.getV, Option.bind_eq_bind] at he
  obtain ⟨k, hk, he⟩ := Option.bind_eq_some_iff.mp he
  simp only [MemRefType.dim?, hx.shape] at hk
  cases hk
  cases he
  exact ⟨a, b, ha, hb, rfl⟩

theorem emitOp_store (hx : F16Shape x rows cols)
    (he : emitOp layout d (.dmaStore t (toDDR id x)) = some e) :
    ∃ a b, layout.sramAddr? t = some a ∧ ddrBaseAddr layout x = some b
      ∧ x.isAlloc = true ∧ e = emitLine (.dmaStore d (wholeTransfer a b rows cols)) d := by
  obtain ⟨_, halloc, he⟩ := Option.bind_eq_some_iff.mp he
  obtain ⟨b, hb, he⟩ := Option.bind_eq_some_iff.mp he
  obtain ⟨a, ha, he⟩ := Option.bind_eq_some_iff.mp he
  obtain ⟨i, hi, he⟩ := Option.bind_eq_some_iff.mp he
  obtain ⟨j, hj, he⟩ := Option.bind_eq_some_iff.mp he
  simp only [MemRefType.dim?, hx.shape] at hi hj
  cases hi
  cases hj
  cases he
  have hbound : layout.isAllocOp x = true := (Option.guard_eq_some' _).mp halloc
  rw [Layout.isAllocOp, Bool.and_eq_true] at hbound
  exact ⟨a, b, ha, hb, hbound.1, rfl⟩

theorem Layout.Placed.whole (hp : layout.Placed) (ht : layout.sramAddr? t = some a)
    (hx : ddrBaseAddr layout x = some b) (hts : F16Shape t rows cols)
    (hxs : F16Shape x rows cols) (hrows : 0 < rows) (hcols : 0 < cols)
    (halign : 16 ∣ allocAlignment t) : WholeBuffers a b rows cols := by
  have hwords := hts.words
  have hwords' := hxs.words
  have hpos : 0 < rows * cols := Nat.mul_pos hrows hcols
  obtain ⟨hin, -, hmod⟩ := hp.ddrIn x b hx (by omega)
  refine ⟨hrows, hcols, ?_, ?_, ?_, hmod⟩
  · rw [← hwords]
    exact hp.sramIn t a ht
  · rw [← hwords']
    exact hin
  · exact Nat.mod_eq_zero_of_dvd (halign.trans (hp.sramAlign t a ht))

/-- **The load of a whole buffer.** -/
theorem Holds.loadWhole (hp : layout.Placed) {s : BodyState}
    (hsource : layout.isSource x = true) (hts : F16Shape t rows cols)
    (hxs : F16Shape x rows cols) (hrows : 0 < rows) (hcols : 0 < cols)
    (halign : 16 ∣ allocAlignment t) (ht : layout.sramAddr? t = some a)
    (hx : ddrBaseAddr layout x = some b) {u : CModel} (h : Holds layout s u) :
    ∃ u', runInsn F (.dmaLoad d (wholeTransfer a b rows cols)) u = .ok u'
      ∧ Holds layout ((Op.dmaLoad (toDDR id x) t).step (machineOps F) s) u' := by
  obtain ⟨u', hu', hval, hoff⟩ := dmaLoad_whole (hp.whole ht hx hts hxs hrows hcols halign) u
  refine ⟨u', hu', h.setTile hp ht (fun i hi => ?_) (by rwa [hts.words])⟩
  obtain ⟨hwhole, hroot⟩ := isSource_root hsource
  have hview : readView s.ddr (toDDR id x) = s.ddr x := by
    rw [readView_whole (show (toDDR id x).isWhole = true from hwhole)]
    exact congrArg s.ddr hroot
  rw [hts.words] at hi
  rw [hval i hi, hview, h.ddr x b hx i (by rwa [hxs.words])]

/-- **The store of a tile.** -/
theorem Holds.store (hp : layout.Placed) {s : BodyState} (halloc : x.isAlloc = true)
    (hts : F16Shape t rows cols) (hxs : F16Shape x rows cols) (hrows : 0 < rows)
    (hcols : 0 < cols) (halign : 16 ∣ allocAlignment t) (ht : layout.sramAddr? t = some a)
    (hx : ddrBaseAddr layout x = some b) {u : CModel} (h : Holds layout s u) :
    ∃ u', runInsn F (.dmaStore d (wholeTransfer a b rows cols)) u = .ok u'
      ∧ Holds layout ((Op.dmaStore t (toDDR id x)).step (machineOps F) s) u' := by
  have hwhole := hp.whole ht hx hts hxs hrows hcols halign
  obtain ⟨u', hu', hval⟩ := dmaStore_whole hwhole u
  have hroot : (toDDR id x).root = x ∧ (toDDR id x).isWhole = true := by
    cases x with
    | alloc => exact ⟨rfl, rfl⟩
    | _ => cases halloc
  refine ⟨u', hu', ?_⟩
  show Holds layout (s.setBuffer (toDDR id x).root
    (writeView s.ddr (s.sram t) (toDDR id x))) u'
  rw [hroot.1, writeView_whole hroot.2]
  refine h.setBuffer hp hx (fun i hi => ?_) fun l hl => ?_
  · rw [hxs.words] at hi
    rw [hval i hi, h.sram t a ht i (by rwa [hts.words])]
  · refine (@runInsn_footprint F _ (.dmaStore d (wholeTransfer a b rows cols))).frame hu' l
      fun hw => ?_
    cases l with
    | sram y =>
        obtain ⟨_, _, _, _, hy⟩ := hw
        cases hy
    | ddr y =>
        have hout := hl y rfl
        have hin := writes_whole hwhole hw
        rw [hxs.words] at hout
        omega

/-! ### Blocks -/

/-- Two nested ranges are one range over the flat index. -/
theorem flatMap_range (f : Nat → Nat → Nat) (m n : Nat) :
    ((List.range m).flatMap fun i => (List.range n).map (f i))
      = (List.range (m * n)).map fun k => f (k / n) (k % n) := by
  induction m with
  | zero => rw [Nat.zero_mul]; rfl
  | succ m ih =>
      rw [List.range_succ, List.flatMap_append, ih, Nat.succ_mul, List.range_add,
        List.map_append, List.flatMap_singleton, List.map_map]
      congr 1
      refine List.map_congr_left fun j hj => ?_
      rw [List.mem_range] at hj
      rw [Function.comp_apply, flat_div hj, flat_mod hj]

/-- The positions of a block in a matrix. -/
theorem viewPositions_block (rows cols r c m n : Nat) :
    viewPositions [rows, cols] [r, c] [m, n] [1, 1]
      = (List.range (m * n)).map fun k => (r + k / n) * cols + (c + k % n) := by
  rw [← flatMap_range fun i j => (r + i) * cols + (c + j)]
  simp only [viewPositions, List.prod_cons, List.prod_nil, Nat.mul_one, List.map_cons,
    List.map_nil, Nat.add_zero, List.map_flatMap]
  refine List.flatMap_congr fun i _ => ?_
  rw [← List.map_eq_flatMap]

/-- Element `k` of the block, read through the subview. -/
theorem readView_block (hwhole : x.isWhole = true) (hroot : x.root = x)
    (hxs : F16Shape x rows cols) (s : BodyState) {k : Nat} (hk : k < m * n) :
    (readView s.ddr (.subView id (toDDR id' x) [.const r, .const c] [m, n] [1, 1])).getD k 0
      = (s.ddr x).getD ((r + k / n) * cols + (c + k % n)) 0 := by
  have hview : readView s.ddr (toDDR id' x) = s.ddr x := by
    rw [readView_whole (show (toDDR id' x).isWhole = true from hwhole)]
    exact congrArg s.ddr hroot
  have hshape : (toDDR id' x).type.shape = [rows, cols] := hxs.shape
  rw [readView, hview, hshape]
  simp only [List.map_cons, List.map_nil, IndexValue.value, pick]
  rw [viewPositions_block, List.map_map, List.getD_eq_getElem?_getD, List.getElem?_map,
    List.getElem?_range hk]
  rfl

/-- A row of the block lies in the buffer. -/
theorem block_row_le {i : Nat} (hr : r + m ≤ rows) (hc : c + n ≤ cols) (hi : i < m) :
    (r + i) * cols + c + n ≤ rows * cols := by
  have hrow : (r + i + 1) * cols ≤ rows * cols := Nat.mul_le_mul_right cols (by omega)
  rw [Nat.add_mul (r + i), Nat.one_mul] at hrow
  omega

/-- The address of a row of the block. -/
theorem blockSrc_toNat {i : Nat} (hi : i < m) (hr : r + m ≤ rows) (hc : c + n ≤ cols)
    (hn : 0 < n) (hin : InDdr b.toNat (rows * cols)) :
    ((subviewTransfer a b cols r c m n 1).loadSrc i).toNat
      = b.toNat + ((r + i) * cols + c) * 2 := by
  have hend := hin.2
  rw [ddrEnd_eq] at hend
  have hrow := block_row_le hr hc hi
  have hsplit : (r + i) * cols = r * cols + i * cols := Nat.add_mul r i cols
  have hbase : (subviewTransfer a b cols r c m n 1).ddrAddr.toNat
      = b.toNat + r * (cols * 2) + c * 2 := by
    refine blockAddr_toNat ?_
    rw [← Nat.mul_assoc]
    omega
  have hmul : cols * 2 * i = i * cols * 2 := by rw [Nat.mul_right_comm, Nat.mul_comm cols]
  show ((subviewTransfer a b cols r c m n 1).ddrAddr
    + UInt32.ofNat (cols * 2) * UInt32.ofNat i).toNat = _
  rw [toNat_add_mul (by rw [hbase, ← Nat.mul_assoc r]; omega), hbase, ← Nat.mul_assoc r]
  omega

/-- **The load of a block.** -/
theorem Holds.loadBlock (hp : layout.Placed) {s : BodyState}
    (hsource : layout.isSource x = true) (hts : F16Shape t m n)
    (hxs : F16Shape x rows cols) (hr : r + m ≤ rows) (hc : c + n ≤ cols) (hm : 0 < m)
    (hn : 0 < n) (halign : 16 ∣ allocAlignment t) (hblock : (r * cols + c) % 8 = 0)
    (ht : layout.sramAddr? t = some a) (hx : ddrBaseAddr layout x = some b) {u : CModel}
    (h : Holds layout s u) :
    ∃ u', runInsn F (.dmaLoad d (subviewTransfer a b cols r c m n 1)) u = .ok u'
      ∧ Holds layout ((Op.dmaLoad (.subView id (toDDR id' x) [.const r, .const c] [m, n]
        [1, 1]) t).step (machineOps F) s) u' := by
  have hrow := block_row_le hr hc hm
  rw [Nat.add_zero] at hrow
  obtain ⟨hin, -, hmod⟩ := hp.ddrIn x b hx (by rw [hxs.words]; omega)
  have htile := hp.sramIn t a ht
  rw [hxs.words] at hin
  rw [hts.words] at htile
  obtain ⟨hlo, hend⟩ := hin
  have hend' := htile.2
  rw [ddrEnd_eq] at hend
  rw [sramEnd_eq] at hend'
  have hmn : m ≤ m * n := Nat.le_mul_of_pos_right m hn
  have hnm : n ≤ m * n := Nat.le_mul_of_pos_left n hm
  have hR : (subviewTransfer a b cols r c m n 1).rows.toNat = m :=
    toNat_ofNat_small (by omega)
  have hC : (subviewTransfer a b cols r c m n 1).cols.toNat = n :=
    toNat_ofNat_small (by omega)
  have hS : (subviewTransfer a b cols r c m n 1).dstStride.toNat = n * 2 :=
    toNat_ofNat_small (by omega)
  have hsrc : ∀ i < m, ((subviewTransfer a b cols r c m n 1).loadSrc i).toNat
      = b.toNat + ((r + i) * cols + c) * 2 := fun i hi => blockSrc_toNat hi hr hc hn ⟨hlo, hend⟩
  have haddr : (subviewTransfer a b cols r c m n 1).ddrAddr.toNat
      = b.toNat + r * (cols * 2) + c * 2 := by
    refine blockAddr_toNat ?_
    rw [← Nat.mul_assoc]
    omega
  obtain ⟨u', hu', hval, hoff⟩ := dmaLoad_packed
    (p := subviewTransfer a b cols r c m n 1) (s := u)
    (fun i => b.toNat + ((r + i) * cols + c) * 2)
    (by
      rw [Bool.and_eq_true]
      refine ⟨aligned_of_toNat (Nat.mod_eq_zero_of_dvd (halign.trans
        (hp.sramAlign t a ht))), aligned_of_toNat ?_⟩
      rw [haddr, ← Nat.mul_assoc r]
      omega)
    (by rw [hC]; exact hn) (by rw [hS, hC]) (by rw [hR, hC]; exact htile)
    (fun i hi => by
      rw [hR] at hi
      have := block_row_le hr hc hi
      refine ⟨hsrc i hi, by omega, ?_⟩
      rw [hC, ddrEnd_eq]
      omega)
  rw [hR, hC] at hval hoff
  refine ⟨u', hu', h.setTile hp ht (fun k hk => ?_) (by rw [hts.words]; exact hoff)⟩
  rw [hts.words] at hk
  obtain ⟨hi, hj, hk'⟩ := flat_split hk
  have hv : elemAt u' a.toNat (k / n * n + k % n)
      = ddrElem u (b.toNat + ((r + k / n) * cols + c) * 2) (k % n) := hval _ hi _ hj
  rw [hk'] at hv
  have hle := block_row_le hr hc hi
  obtain ⟨hwhole, hroot⟩ := isSource_root hsource
  rw [hv, readView_block hwhole hroot hxs s hk,
    ← h.ddr x b hx _ (by rw [hxs.words]; omega), ddrElem, ddrElem]
  congr 1
  omega

end Transfers

/-! ## Computing -/

section Compute

variable {lhs rhs dst src : Value} {s : BodyState} {u : CModel} {e : Emitted}

/-- Two tiles with words share none. -/
theorem Layout.Placed.apart (hp : layout.Placed) {v w : Value} {a b : UInt32} {m n : Nat}
    (hv : v.type.words = m) (hw : w.type.words = n) (hm : 0 < m) (hn : 0 < n) (hne : v ≠ w)
    (ha : layout.sramAddr? v = some a) (hb : layout.sramAddr? w = some b) :
    ArraysApart a.toNat m b.toNat n := by
  subst hv
  subst hw
  exact hp.sramApart v w a b hne ha hb hm hn

section Matmul

variable {accumulate transA transB : Bool} {M K N : Nat}

theorem VerifiedMatmul.words (hs : VerifiedMatmul lhs rhs dst transA transB M K N) :
    lhs.type.words = M * K ∧ rhs.type.words = K * N ∧ dst.type.words = M * N := by
  refine ⟨?_, ?_, hs.dst.words⟩
  · rw [MemRefType.words, hs.lhs_size, Nat.mul_div_cancel _ (by decide)]
  · rw [MemRefType.words, hs.rhs_size, Nat.mul_div_cancel _ (by decide)]

/-- The element of the descriptor is the element of the contents. -/
theorem productElem_eq {a b c : UInt32}
    (hs : VerifiedMatmul lhs rhs dst transA transB M K N) (h : Holds layout s u)
    (ha : layout.sramAddr? lhs = some a) (hb : layout.sramAddr? rhs = some b)
    (hc : layout.sramAddr? dst = some c) {i : Nat} (hi : i < M * N) :
    Fp32.fp32ToFp16 (productElem F u c.toNat a.toNat b.toNat M K N accumulate transA transB
        (i / N) (i % N))
      = matmulWord F M K N accumulate transA transB (s.sram lhs) (s.sram rhs) (s.sram dst)
        i := by
  obtain ⟨hrow, hcol, hi'⟩ := flat_split hi
  obtain ⟨hlhs, hrhs, hdst⟩ := hs.words
  have hsum : dotProduct F (fun k => operandElem u a.toNat transA M K (i / N) k)
        (fun k => operandElem u b.toNat transB K N k (i % N)) K
      = dotProduct F
        (fun k => (s.sram lhs).getD (if transA then k * M + i / N else i / N * K + k) 0)
        (fun k => (s.sram rhs).getD (if transB then i % N * K + k else k * N + i % N) 0)
        K := by
    refine dotProduct_congr (fun k hk => ?_) fun k hk => ?_
    · refine h.sram lhs a ha _ ?_
      rw [hlhs]
      split_ifs
      · rw [Nat.mul_comm M]
        exact flat_lt hk hrow
      · exact flat_lt hrow hk
    · refine h.sram rhs b hb _ ?_
      rw [hrhs]
      split_ifs
      · rw [Nat.mul_comm K]
        exact flat_lt hcol hk
      · exact flat_lt hk hcol
  rw [productElem, matmulWord, hsum, hi', h.sram dst c hc i (by rwa [hdst])]

/-- **MATMUL.** -/
theorem Holds.matmul (hp : layout.Placed) (h : Holds layout s u)
    (hs : VerifiedMatmul lhs rhs dst transA transB M K N) (hM : 0 < M) (hK : 0 < K)
    (hN : 0 < N) (hlr : lhs ≠ rhs) (hld : lhs ≠ dst) (hrd : rhs ≠ dst) {a b c : UInt32}
    (ha : layout.sramAddr? lhs = some a) (hb : layout.sramAddr? rhs = some b)
    (hc : layout.sramAddr? dst = some c) :
    ∃ u', runInsn F (.matmul d (matmulDesc c a b M K N accumulate transA transB)) u = .ok u'
      ∧ Holds layout ((Op.matmul lhs rhs dst accumulate transA transB).step (machineOps F) s)
        u' := by
  obtain ⟨hlw, hrw, hdw⟩ := hs.words
  have hMK : 0 < M * K := Nat.mul_pos hM hK
  have hKN : 0 < K * N := Nat.mul_pos hK hN
  have hMN : 0 < M * N := Nat.mul_pos hM hN
  have hlin := hp.sramIn lhs a ha
  have hrin := hp.sramIn rhs b hb
  have hdin := hp.sramIn dst c hc
  rw [hlw] at hlin
  rw [hrw] at hrin
  rw [hdw] at hdin
  have hend := hlin.2
  have hend' := hrin.2
  rw [sramEnd_eq] at hend hend'
  have hle : M ≤ M * K := Nat.le_mul_of_pos_right M hK
  have hle' : K ≤ M * K := Nat.le_mul_of_pos_left K hM
  have hle'' : N ≤ K * N := Nat.le_mul_of_pos_left N hK
  have hMd : (matmulDesc c a b M K N accumulate transA transB).M.toNat = M :=
    toNat_ofNat_small (by omega)
  have hKd : (matmulDesc c a b M K N accumulate transA transB).K.toNat = K :=
    toNat_ofNat_small (by omega)
  have hNd : (matmulDesc c a b M K N accumulate transA transB).N.toNat = N :=
    toNat_ofNat_small (by omega)
  have hres : (matmulDesc c a b M K N accumulate transA transB).Resident := by
    constructor
    · rw [hMd, hNd]; exact hdin
    · rw [hMd, hKd]; exact hlin
    · rw [hKd, hNd]; exact hrin
  have hap : (matmulDesc c a b M K N accumulate transA transB).Apart := by
    constructor
    · rw [hMd, hKd, hNd]; exact hp.apart hlw hdw hMK hMN hld ha hc
    · rw [hKd, hNd, hMd]; exact hp.apart hrw hdw hKN hMN hrd hb hc
    · rw [hMd, hKd, hNd]; exact hp.apart hlw hrw hMK hKN hlr ha hb
  obtain ⟨u', hu', hval, hoff⟩ := matmul_resident (F := F) (s := u) hres hap
  rw [hMd, hNd] at hval hoff
  refine ⟨u', hu', h.setTile hp hc (fun i hi => ?_) (by rw [hdw]; exact hoff)⟩
  rw [hdw] at hi
  obtain ⟨hrow, hcol, hi'⟩ := flat_split hi
  have hv := hval _ hrow _ hcol
  rw [hi', matmulResult_matmulDesc u _ _ (by omega) (by omega) (by omega),
    productElem_eq hs h ha hb hc hi] at hv
  have hdims : dst.type.numElements = M * N ∧ dst.type.extent 0 = M
      ∧ (if transA then lhs.type.extent 0 else lhs.type.extent 1) = K
      ∧ (if transB then rhs.type.extent 0 else rhs.type.extent 1) = N := by
    refine ⟨hs.dst.elements, hs.dst.extents.1, ?_, ?_⟩
    · rw [hs.lhs.extents.1, hs.lhs.extents.2]
      cases transA <;> rfl
    · rw [hs.rhs.extents.1, hs.rhs.extents.2]
      cases transB <;> rfl
  obtain ⟨hnum, hm, hk, hn⟩ := hdims
  rw [machineOps]
  dsimp only
  rw [hnum, hm, hk, hn, getD_wordsOf _ hi]
  exact hv

end Matmul

/-! ### ELEMENTWISE -/

section Ewise

variable {p : EwiseParam} {n : Nat} {idx : Nat → Nat}

/-- **A DIV that finishes** found no divisor that is zero. -/
theorem elementwise_divisors (hn : (p.rows * p.cols).toNat = n)
    (hidx : ∀ i < n, (p.rhsIndex (UInt32.ofNat i)).toNat = idx i)
    (hdst : InSram p.dstAddr.toNat n)
    (hrhs : ∀ i < n, InSram (p.rhsAddr.toNat + idx i * 2) 1)
    (hap : ∀ i < n, ArraysApart (p.rhsAddr.toNat + idx i * 2) 1 p.dstAddr.toNat n)
    {u' : CModel} (h : elementwise F p .div u = .ok u') {i : Nat} (hi : i < n) :
    Fp32.eq (Fp32.fp16ToFp32 (elemAt u p.rhsAddr.toNat (idx i)) : F) Fp32.zero = false := by
  have hend := hdst.2
  rw [sramEnd_eq] at hend
  obtain ⟨_, -, h⟩ := bind_ok h
  obtain ⟨_, -, h⟩ := bind_ok h
  rw [hn] at h
  obtain ⟨t', ht'⟩ := forLoop_prefix (m := i + 1) h hi
  rw [forLoop_succ] at ht'
  obtain ⟨t, ht, hcell⟩ := bind_ok ht'
  -- the cells before write the elements before
  have hoff : AgreeOff u t p.dstAddr.toNat i := by
    refine forLoop_inv (fun k v => AgreeOff u v p.dstAddr.toNat k) (AgreeOff.refl u _ 0)
      (fun k hk v v' hv hstep => ?_) ht
    obtain ⟨x, -, hwrite⟩ := bind_ok hstep
    obtain ⟨-, rfl⟩ := (writeFP16_ok_iff F).mp hwrite
    have haddr : (p.dstAddr + UInt32.ofNat k * DTYPE_SIZE).toNat = p.dstAddr.toNat + k * 2 :=
      toNat_elem (toNat_ofNat_small (by omega)) (by omega)
    rw [haddr]
    intro l hl
    rw [← hv l fun a ha => by have := hl a ha; omega]
    cases l with
    | ddr a => rfl
    | sram a =>
        have hout := hl a rfl
        have hlen : (u16Bytes (Fp32.fp32ToFp16 x)).length = 2 := rfl
        exact storeSram_out (by omega)
  obtain ⟨x, hvalue, -⟩ := bind_ok hcell
  obtain ⟨a, -, hvalue⟩ := bind_ok hvalue
  obtain ⟨b, hread, hvalue⟩ := bind_ok hvalue
  obtain ⟨-, rfl⟩ := (readFP16_ok_iff F).mp hread
  have hin := (hrhs i hi).2
  rw [sramEnd_eq] at hin
  have haddr : (p.rhsAddr + p.rhsIndex (UInt32.ofNat i) * DTYPE_SIZE).toNat
      = p.rhsAddr.toNat + idx i * 2 := toNat_elem (hidx i hi) (by omega)
  have hsame : elemAt t p.rhsAddr.toNat (idx i) = elemAt u p.rhsAddr.toNat (idx i) := by
    have := hap i hi
    unfold ArraysApart at this
    exact hoff.elemAt_eq (by omega)
  rw [haddr] at hvalue
  rw [← hsame]
  cases hz : Fp32.eq (Fp32.fp16ToFp32 (elemAt t p.rhsAddr.toNat (idx i)) : F) Fp32.zero with
  | false => rfl
  | true =>
      have hload : loadU16 t.sramByte (p.rhsAddr.toNat + idx i * 2)
          = elemAt t p.rhsAddr.toNat (idx i) := rfl
      rw [hload, if_pos rfl, hz] at hvalue
      cases hvalue

variable {kind : BinOp} {rows cols smallRows smallCols : Nat} {a b c : UInt32}

/-- The emitted descriptor passes the assertions on its fields. -/
theorem ewiseDesc_legal (hok : smallShapeOk smallRows smallCols rows cols = true)
    (hrows : 0 < rows) (hcols : 0 < cols) (hbig : rows * cols < 4294967296)
    (hsmall : smallRows * smallCols < 4294967296) :
    (ewiseDesc c a b rows cols smallRows smallCols).cols ≠ 0
      ∧ (ewiseDesc c a b rows cols smallRows smallCols).rhsBlk ≠ 0
      ∧ (ewiseDesc c a b rows cols smallRows smallCols).cols
        % (ewiseDesc c a b rows cols smallRows smallCols).rhsBlk = 0
      ∧ ((ewiseDesc c a b rows cols smallRows smallCols).rows
        * (ewiseDesc c a b rows cols smallRows smallCols).cols).toNat = rows * cols
      ∧ ∀ i < rows * cols, ((ewiseDesc c a b rows cols smallRows smallCols).rhsIndex
        (UInt32.ofNat i)).toNat = smallPosition smallRows smallCols (i / cols) (i % cols) := by
  have hrn : rows ≤ rows * cols := Nat.le_mul_of_pos_right rows hcols
  have hcn : cols ≤ rows * cols := Nat.le_mul_of_pos_left cols hrows
  have hshape := hok
  simp only [smallShapeOk, Bool.and_eq_true, decide_eq_true_eq] at hshape
  obtain ⟨⟨hsc, hdvd⟩, -⟩ := hshape
  have hle : smallCols ≤ cols := Nat.le_of_dvd hcols (Nat.dvd_of_mod_eq_zero hdvd)
  refine ⟨ofNat_ne_zero (by omega) hcols, ofNat_ne_zero (by omega) hsc, ?_, ?_, ?_⟩
  · show UInt32.ofNat cols % UInt32.ofNat smallCols = 0
    apply UInt32.toNat.inj
    rw [UInt32.toNat_mod, toNat_ofNat_small (by omega), toNat_ofNat_small (by omega), hdvd]
    rfl
  · show (UInt32.ofNat rows * UInt32.ofNat cols).toNat = rows * cols
    rw [UInt32.toNat_mul, toNat_ofNat_small (by omega), toNat_ofNat_small (by omega),
      Nat.mod_eq_of_lt hbig]
  · intro i hi
    obtain ⟨hrow, hcol, hi'⟩ := flat_split hi
    have := rhsIndex_ewiseDesc c a b hok hrow hcol hbig hsmall
    rwa [hi'] at this

/-- **ELEMENTWISE** finishes unless it divides by zero; the result may lie in the
place of the first operand. -/
theorem Holds.ewise (hp : layout.Placed) (h : Holds layout s u)
    (hd : F16Shape dst rows cols) (hl : F16Shape lhs rows cols)
    (hr : F16Shape rhs smallRows smallCols)
    (hok : smallShapeOk smallRows smallCols rows cols = true) (hrows : 0 < rows)
    (hcols : 0 < cols) (hsmall : 0 < smallRows * smallCols) (hne : rhs ≠ dst)
    (ha : layout.sramAddr? lhs = some a) (hb : layout.sramAddr? rhs = some b)
    (hc : layout.sramAddr? dst = some c) :
    ((∃ u', runInsn F (.elementwise kind.mnemonic d
          (ewiseDesc c a b rows cols smallRows smallCols)) u = .ok u')
        ↔ (Op.ewise kind lhs rhs dst).DivisorsNonzero F s)
      ∧ ∀ u', runInsn F (.elementwise kind.mnemonic d
          (ewiseDesc c a b rows cols smallRows smallCols)) u = .ok u' →
        Holds layout ((Op.ewise kind lhs rhs dst).step (machineOps F) s) u' := by
  have hbig : 0 < rows * cols := Nat.mul_pos hrows hcols
  have hlin := hp.sramIn lhs a ha
  have hrin := hp.sramIn rhs b hb
  have hdin := hp.sramIn dst c hc
  rw [hl.words] at hlin
  rw [hr.words] at hrin
  rw [hd.words] at hdin
  have hrlo := hrin.1
  have hend := hdin.2
  have hend' := hrin.2
  rw [sramEnd_eq] at hend hend'
  obtain ⟨hc0, hb0, hmod, hn, hidx⟩ := @ewiseDesc_legal rows cols smallRows smallCols a b c
    hok hrows hcols (by omega) (by omega)
  have hpos : ∀ i < rows * cols, smallPosition smallRows smallCols (i / cols) (i % cols)
      < smallRows * smallCols := fun i hi => smallPosition_lt hok (flat_split hi).1
  have hrhs : ∀ i < rows * cols, InSram (b.toNat
      + smallPosition smallRows smallCols (i / cols) (i % cols) * 2) 1 := fun i hi => by
    have := hpos i hi
    refine ⟨by omega, ?_⟩
    rw [sramEnd_eq]
    omega
  have hap := hp.apart hr.words hd.words hsmall hbig hne hb hc
  have hcell : ∀ i < rows * cols, ArraysApart (b.toNat
      + smallPosition smallRows smallCols (i / cols) (i % cols) * 2) 1 c.toNat
      (rows * cols) := fun i hi => by
    have := hpos i hi
    unfold ArraysApart at hap ⊢
    omega
  have hplace : a = c ∨ ArraysApart a.toNat (rows * cols) c.toNat (rows * cols) := by
    by_cases heq : lhs = dst
    · rw [heq, hc] at ha
      exact .inl (Option.some.inj ha).symm
    · exact .inr (hp.apart hl.words hd.words hbig hbig heq ha hc)
  -- the divisors in memory are those of the state
  have hdiv : (Op.ewise kind lhs rhs dst).DivisorsNonzero F s ↔ (kind.mnemonic = .div →
      ∀ i < rows * cols, Fp32.eq (Fp32.fp16ToFp32 (elemAt u b.toNat
        (smallPosition smallRows smallCols (i / cols) (i % cols))) : F) Fp32.zero = false) := by
    cases kind with
    | Div =>
        rw [Op.DivisorsNonzero, hd.elements, hr.extents.1, hr.extents.2, hd.extents.2]
        refine ⟨fun hall _ i hi => ?_, fun hall i hi => ?_⟩
        · rw [h.sram rhs b hb _ (by rw [hr.words]; exact hpos i hi)]
          exact hall i hi
        · rw [← h.sram rhs b hb _ (by rw [hr.words]; exact hpos i hi)]
          exact hall rfl i hi
    | _ => exact iff_of_true trivial fun hop => by cases hop
  have hrun : (Op.ewise kind lhs rhs dst).DivisorsNonzero F s → ∃ u', runInsn F
      (.elementwise kind.mnemonic d (ewiseDesc c a b rows cols smallRows smallCols)) u = .ok u'
      ∧ Holds layout ((Op.ewise kind lhs rhs dst).step (machineOps F) s) u' := by
    intro hnz
    obtain ⟨u', hu', hval, hoff⟩ := elementwise_cells (F := F) (s := u)
      (d := ewiseDesc c a b rows cols smallRows smallCols) kind.mnemonic
      (fun i => smallPosition smallRows smallCols (i / cols) (i % cols)) hc0 hb0 hmod hn hidx
      hdin hlin hrhs hplace hcell (hdiv.mp hnz)
    refine ⟨u', hu', h.setTile hp hc (fun i hi => ?_) (by rw [hd.words]; exact hoff)⟩
    rw [hd.words] at hi
    rw [machineOps]
    dsimp only
    rw [hd.elements, hd.extents.2, hr.extents.1, hr.extents.2, getD_wordsOf _ hi]
    refine (hval i hi).trans ?_
    rw [ewiseWord, ← h.sram lhs a ha i (by rwa [hl.words]),
      ← h.sram rhs b hb _ (by rw [hr.words]; exact hpos i hi)]
    rfl
  have hsafe : ∀ u', runInsn F (.elementwise kind.mnemonic d
      (ewiseDesc c a b rows cols smallRows smallCols)) u = .ok u' →
      (Op.ewise kind lhs rhs dst).DivisorsNonzero F s := by
    intro u' hu'
    refine hdiv.mpr fun hop i hi => ?_
    rw [hop] at hu'
    exact elementwise_divisors hn hidx hdin hrhs hcell hu' hi
  refine ⟨⟨fun hex => ?_, fun hnz => ?_⟩, fun u' hu' => ?_⟩
  · obtain ⟨u', hu'⟩ := hex
    exact hsafe u' hu'
  · obtain ⟨u', hu', -⟩ := hrun hnz
    exact ⟨u', hu'⟩
  · obtain ⟨v, hv, hheld⟩ := hrun (hsafe u' hu')
    rw [hu'] at hv
    cases hv
    exact hheld

end Ewise

/-! ### ACT -/

/-- **ACT.** -/
theorem Holds.act (hp : layout.Placed) (h : Holds layout s u) {kind : ActKind}
    {rows cols : Nat} (hs : F16Shape src rows cols) (hd : F16Shape dst rows cols)
    (hpos : 0 < rows * cols) (hne : src ≠ dst) {a b : UInt32}
    (ha : layout.sramAddr? src = some a) (hb : layout.sramAddr? dst = some b) :
    ∃ u', runInsn F (.act d ⟨b, a, UInt32.ofNat src.type.numElements, kind.toU32⟩) u = .ok u'
      ∧ Holds layout ((Op.act kind src dst).step (machineOps F) s) u' := by
  have hsin := hp.sramIn src a ha
  have hdin := hp.sramIn dst b hb
  rw [hs.words] at hsin
  rw [hd.words] at hdin
  have hend := hsin.2
  rw [sramEnd_eq] at hend
  have hap := hp.apart hs.words hd.words hpos hpos hne ha hb
  obtain ⟨u', hu', hval, hoff⟩ := @act_packed F _
    ⟨b, a, UInt32.ofNat src.type.numElements, kind.toU32⟩ kind u (rows * cols) rfl
    (by rw [hs.elements]; exact toNat_ofNat_small (by omega)) hdin hsin hap
  refine ⟨u', hu', h.setTile hp hb (fun i hi => ?_) (by rw [hd.words]; exact hoff)⟩
  rw [hd.words] at hi
  rw [machineOps]
  dsimp only
  rw [hd.elements, getD_wordsOf _ hi, actWord, ← h.sram src a ha i (by rwa [hs.words])]
  exact hval i hi

/-! ### REDUCE -/

section Reduce

variable {kind : ReduceKind} {rows cols : Nat} {a b i : UInt32}

/-- A value row of the memory is that row of the contents. -/
theorem rowValue_eq (h : Holds layout s u) (hs : F16Shape src rows cols)
    (ha : layout.sramAddr? src = some a) {p : ReduceParam} (hsrc : p.srcAddr = a)
    (hcols : p.cols.toNat = cols) (hpos : 0 < cols) {r : Nat} (hr : r < rows) :
    p.rowValue F kind u r = reduceRowOf F kind cols (s.sram src) r := by
  rw [ReduceParam.rowValue, reduceRowOf, hcols]
  refine ReduceKind.fold_congr fun j hj => ?_
  rw [ReduceParam.srcRow, hsrc, hcols]
  exact h.sram src a ha _ (by rw [hs.words]; exact flat_lt hr (by omega))

/-- The two halfwords of a stored index. -/
theorem elemAt_index {base r k : Nat} {v : UInt32}
    (h : loadU32 u.sramByte (base + r * 4) = v) (hk : k < 2) :
    elemAt u base (r * 2 + k) = halfword v k := by
  have hpos : base + (r * 2 + k) * 2 = base + r * 4 + k * 2 := by omega
  rw [elemAt, hpos, ← h, loadU16, loadU32, halfword]
  have h0 := (u.sramByte (base + r * 4)).toNat_lt
  have h1 := (u.sramByte (base + r * 4 + 1)).toNat_lt
  have h2 := (u.sramByte (base + r * 4 + 2)).toNat_lt
  have h3 := (u.sramByte (base + r * 4 + 3)).toNat_lt
  apply UInt16.toNat.inj
  rw [UInt16.toNat_ofNat', UInt16.toNat_ofNat', UInt32.toNat_ofNat']
  obtain rfl | rfl : k = 0 ∨ k = 1 := by omega
  · rw [if_pos rfl, Nat.zero_mul, Nat.add_zero]
    omega
  · rw [if_neg (by decide), Nat.one_mul, Nat.add_assoc _ 2 1]
    omega

/-- **REDUCE.** -/
theorem Holds.reduce (hp : layout.Placed) (h : Holds layout s u) (hs : F16Shape src rows cols)
    (hd : F16Shape dst rows 1) (hrows : 0 < rows) (hcols : 0 < cols) (hne : src ≠ dst)
    (hkind : kind ≠ .ARGMAX) (ha : layout.sramAddr? src = some a)
    (hb : layout.sramAddr? dst = some b) :
    ∃ u', runInsn F (.reduce d ⟨b, 0, a, UInt32.ofNat rows, UInt32.ofNat cols, kind.toU32⟩) u
        = .ok u'
      ∧ Holds layout ((Op.reduce kind src dst none).step (machineOps F) s) u' := by
  have hsin := hp.sramIn src a ha
  have hdin := hp.sramIn dst b hb
  have hsw := hs.words
  have hdw := hd.words
  rw [Nat.mul_one] at hdw
  rw [hsw] at hsin
  rw [hdw] at hdin
  have hend := hsin.2
  rw [sramEnd_eq] at hend
  have hle : rows ≤ rows * cols := Nat.le_mul_of_pos_right rows hcols
  have hle' : cols ≤ rows * cols := Nat.le_mul_of_pos_left cols hrows
  have hap := hp.apart hsw hdw (by omega) hrows hne ha hb
  have hR : (UInt32.ofNat rows).toNat = rows := toNat_ofNat_small (by omega)
  have hC : (UInt32.ofNat cols).toNat = cols := toNat_ofNat_small (by omega)
  have hplaced : (⟨b, 0, a, UInt32.ofNat rows, UInt32.ofNat cols, kind.toU32⟩ :
      ReduceParam).Placed := by
    constructor
    · dsimp only
      rwa [hR, hC]
    · dsimp only
      rwa [hR]
    · dsimp only
      rwa [hR, hC]
    · exact fun hk => absurd (ReduceKind.toU32_inj hk) hkind
  obtain ⟨u', hu', hw⟩ := reduce_clear (F := F) (s := u) hplaced.resident hplaced.clear rfl
    (ofNat_ne_zero (by omega) hrows) (ofNat_ne_zero (by omega) hcols)
    (iff_of_false hkind fun h => h rfl)
  refine ⟨u', hu', h.setTile hp hb (fun i hi => ?_) (fun l hl => ?_)⟩
  · rw [hdw] at hi
    have hv := hw.value i (by rw [hR]; exact hi)
    rw [rowValue_eq h hs ha rfl hC hcols hi] at hv
    rw [machineOps]
    dsimp only
    rw [hd.elements, Nat.mul_one, hs.extents.2, getD_wordsOf _ hi]
    exact hv
  · refine hw.other l fun y hy => ⟨?_, fun hk => absurd hk hkind⟩
    have := hl y hy
    rw [hdw] at this
    dsimp only
    rwa [hR]

/-- A memory with the first of two changed arrays changed. -/
theorem exists_between (u u' : CModel) (base n : Nat) : ∃ v : CModel,
    AgreeOff u v base n
      ∧ ∀ y, base ≤ y → y < base + n * 2 → v (.sram y) = u' (.sram y) := by
  classical
  refine ⟨fun l => if ∃ y, l = .sram y ∧ base ≤ y ∧ y < base + n * 2 then u' l else u l,
    fun l hl => ?_, fun y hlo hhi => if_pos ⟨y, rfl, hlo, hhi⟩⟩
  refine if_neg fun hin => ?_
  obtain ⟨y, rfl, hlo, hhi⟩ := hin
  have hout := hl y rfl
  omega

/-- **ARGMAX** writes the values and the indices. -/
theorem Holds.argmax (hp : layout.Placed) (h : Holds layout s u) {idx : Value}
    (hs : F16Shape src rows cols) (hd : F16Shape dst rows 1)
    (hi : idx.type.sizeInBytes = rows * 4) (hrows : 0 < rows) (hcols : 0 < cols)
    (hsd : src ≠ dst) (hsi : src ≠ idx) (hdi : dst ≠ idx)
    (ha : layout.sramAddr? src = some a) (hb : layout.sramAddr? dst = some b)
    (hc : layout.sramAddr? idx = some i) :
    ∃ u', runInsn F (.reduce d ⟨b, i, a, UInt32.ofNat rows, UInt32.ofNat cols,
        ReduceKind.ARGMAX.toU32⟩) u = .ok u'
      ∧ Holds layout ((Op.reduce .ARGMAX src dst (some idx)).step (machineOps F) s) u' := by
  have hsin := hp.sramIn src a ha
  have hdin := hp.sramIn dst b hb
  have hiin := hp.sramIn idx i hc
  have hsw := hs.words
  have hdw := hd.words
  have hiw : idx.type.words = rows * 2 := by
    rw [MemRefType.words, hi]
    omega
  rw [Nat.mul_one] at hdw
  rw [hsw] at hsin
  rw [hdw] at hdin
  rw [hiw] at hiin
  have hend := hsin.2
  rw [sramEnd_eq] at hend
  have hle : rows ≤ rows * cols := Nat.le_mul_of_pos_right rows hcols
  have hle' : cols ≤ rows * cols := Nat.le_mul_of_pos_left cols hrows
  have hap := hp.apart hsw hdw (by omega) hrows hsd ha hb
  have hap' := hp.apart hsw hiw (by omega) (by omega) hsi ha hc
  have hap'' := hp.apart hdw hiw hrows (by omega) hdi hb hc
  have hR : (UInt32.ofNat rows).toNat = rows := toNat_ofNat_small (by omega)
  have hC : (UInt32.ofNat cols).toNat = cols := toNat_ofNat_small (by omega)
  have hplaced : (⟨b, i, a, UInt32.ofNat rows, UInt32.ofNat cols, ReduceKind.ARGMAX.toU32⟩ :
      ReduceParam).Placed := by
    constructor
    · dsimp only
      rwa [hR, hC]
    · dsimp only
      rwa [hR]
    · dsimp only
      rwa [hR, hC]
    · dsimp only
      rw [hR, hC]
      exact fun _ => ⟨hiin, hap', hap''⟩
  have hnz : i ≠ 0 := by
    intro hzero
    have := hiin.1
    rw [hzero] at this
    exact absurd this (by decide)
  obtain ⟨u', hu', hw⟩ := reduce_clear (F := F) (s := u) hplaced.resident hplaced.clear rfl
    (ofNat_ne_zero (by omega) hrows) (ofNat_ne_zero (by omega) hcols)
    (iff_of_true rfl hnz)
  obtain ⟨v, hoff, hin⟩ := exists_between u u' b.toNat rows
  have hrow : ∀ r < rows, ReduceParam.rowValue F ⟨b, i, a, UInt32.ofNat rows,
      UInt32.ofNat cols, ReduceKind.ARGMAX.toU32⟩ .ARGMAX u r
      = reduceRowOf F .ARGMAX cols (s.sram src) r :=
    fun r hr => rowValue_eq h hs ha rfl hC hcols hr
  -- first the values
  have hfirst : Holds layout (s.setTile dst ((machineOps F).reduce .ARGMAX src.type dst.type
      (s.sram src))) v := by
    refine h.setTile hp hb (fun k hk => ?_) (by rw [hdw]; exact hoff)
    rw [hdw] at hk
    have hv := hw.value k (by rw [hR]; exact hk)
    rw [hrow k hk] at hv
    rw [machineOps]
    dsimp only
    rw [hd.elements, Nat.mul_one, hs.extents.2, getD_wordsOf _ hk]
    refine Eq.trans ?_ hv
    exact loadU16_congr (hin _ (by omega) (by omega)) (hin _ (by omega) (by omega))
  -- then the indices
  refine ⟨u', hu', hfirst.setTile hp hc (fun k hk => ?_) fun l hl => ?_⟩
  · rw [hiw] at hk
    have hv := hw.index rfl (k / 2) (by rw [hR]; omega)
    rw [hrow (k / 2) (by omega)] at hv
    rw [machineOps]
    dsimp only
    rw [hs.extents.1, hs.extents.2, getD_wordsOf _ hk]
    refine Eq.trans ?_ (elemAt_index hv (Nat.mod_lt k (by decide)))
    congr 1
    omega
  · rw [hiw] at hl
    by_cases hmem : ∃ y, l = .sram y ∧ b.toNat ≤ y ∧ y < b.toNat + rows * 2
    · obtain ⟨y, rfl, hlo, hhi⟩ := hmem
      exact (hin y hlo hhi).symm
    · rw [hoff l fun y hy => ?_]
      · refine hw.other l fun y hy => ?_
        have hout := hl y hy
        dsimp only
        rw [hR]
        refine ⟨?_, fun _ => by omega⟩
        by_contra hcon
        exact hmem ⟨y, hy, by omega, by omega⟩
      · by_contra hcon
        exact hmem ⟨y, hy, by omega, by omega⟩

end Reduce

end Compute

end EclipseNpu.Compiler

import EclipseNpu.Compiler.ActSound

/-!
# Compiler — ReduceSound

What `GenericReduceLowering` gets right. The pattern looks at the body and at
the second result of the output map; which row a loop point belongs to is said
by the first result, which it takes as `d0`. The stream reduces the rows of the
input (`run_reduce`); the generic does so only if that result is the row at
every loop point, and MAX has the NaN rule of `maximumf`.

SUM and SQUARE_SUM are compared over exact arithmetic, MAX on the patterns.
-/

namespace EclipseNpu.Compiler

open EclipseNpu.Lib EclipseNpu.Lib.Ieee754 EclipseNpu.Runtime

/-! ## The body -/

/-- The two block arguments, in either order. -/
def InputAndAcc (input l r : ScalarExpr) : Prop :=
  (l = input ∧ r = .arg 1) ∨ (l = .arg 1 ∧ r = input)

/-- A body `matchReduceBody` takes. -/
inductive ReduceBody : ReduceKind → ScalarExpr → Prop
  | sum {l r : ScalarExpr} (h : InputAndAcc (.arg 0) l r) : ReduceBody .SUM (.addf l r)
  | squareSum {l r : ScalarExpr} (h : InputAndAcc (.mulf (.arg 0) (.arg 0)) l r) :
      ReduceBody .SQUARE_SUM (.addf l r)
  | maximumf {l r : ScalarExpr} (h : InputAndAcc (.arg 0) l r) :
      ReduceBody .MAX (.maximumf l r)
  | maxnumf {l r : ScalarExpr} (h : InputAndAcc (.arg 0) l r) :
      ReduceBody .MAX (.maxnumf l r)

theorem inputAndAcc_of_add {l r input : ScalarExpr} (hacc : ¬ (l ≠ .arg 1 ∧ r ≠ .arg 1))
    (h : (if l = .arg 1 then r else l) = input) : InputAndAcc input l r := by
  by_cases hl : l = .arg 1
  · rw [if_pos hl] at h
    exact .inr ⟨hl, h⟩
  · rw [if_neg hl] at h
    exact .inl ⟨h, Decidable.not_not.mp fun hr => hacc ⟨hl, hr⟩⟩

theorem matchReduceBody_some {root : ScalarExpr} {kind : ReduceKind}
    (h : matchReduceBody root = some kind) : ReduceBody kind root := by
  unfold matchReduceBody at h
  split at h
  · rename_i l r
    dsimp only at h
    by_cases hacc : l ≠ .arg 1 ∧ r ≠ .arg 1
    · rw [if_pos hacc] at h
      cases h
    rw [if_neg hacc] at h
    generalize hother : (if l = .arg 1 then r else l) = other at h
    split_ifs at h with hsum hsquare
    · cases h
      exact .sum (inputAndAcc_of_add hacc (hother.trans hsum))
    · cases h
      exact .squareSum (inputAndAcc_of_add hacc (hother.trans hsquare))
  · split_ifs at h with hpair
    cases h
    exact .maximumf hpair
  · split_ifs at h with hpair
    cases h
    exact .maxnumf hpair
  · cases h

/-- The identity of the combiner, which the output holds at the start. That of
`maxnumf`, which drops NaN, is NaN. -/
def ScalarExpr.identity {F : Type} [Fp32 F] : ScalarExpr → F
  | .maximumf _ _ => Fp32.fp16ToFp32 0xFC00
  | .maxnumf _ _ => Fp32.quietNaN
  | _ => Fp32.zero

/-! ### Over exact arithmetic -/

section Exact

variable {F : Type} [Fp32 F] [CommSemiring F]

/-- What an element adds. -/
def exactTerm (kind : ReduceKind) (x : F) : F :=
  match kind with
  | .SQUARE_SUM => x * x
  | _ => x

theorem ReduceBody.exact {kind : ReduceKind} {root : ScalarExpr}
    (h : ReduceBody kind root) (hkind : kind ≠ .MAX) (hF : ExactArith F)
    (args unknown : Nat → F) :
    root.eval args unknown = args 1 + exactTerm kind (args 0) := by
  cases h with
  | sum hlr =>
      rcases hlr with ⟨rfl, rfl⟩ | ⟨rfl, rfl⟩
      · exact (hF.add _ _).trans (add_comm _ _)
      · exact hF.add _ _
  | squareSum hlr =>
      rcases hlr with ⟨rfl, rfl⟩ | ⟨rfl, rfl⟩
      · show Fp32.add (Fp32.mul (args 0) (args 0)) (args 1) = _
        rw [hF.add, hF.mul, add_comm]
        rfl
      · show Fp32.add (args 1) (Fp32.mul (args 0) (args 0)) = _
        rw [hF.add, hF.mul]
        rfl
  | maximumf => exact absurd rfl hkind
  | maxnumf => exact absurd rfl hkind

theorem ReduceBody.identity_exact {kind : ReduceKind} {root : ScalarExpr}
    (h : ReduceBody kind root) (hkind : kind ≠ .MAX) (hF : ExactArith F) :
    (root.identity : F) = 0 := by
  cases h with
  | sum => exact hF.zero
  | squareSum => exact hF.zero
  | maximumf => exact absurd rfl hkind
  | maxnumf => exact absurd rfl hkind

/-- The executor's fold, one element on. -/
theorem fold_exact_zero (hF : ExactArith F) {kind : ReduceKind} (hk : kind = .SUM ∨
    kind = .SQUARE_SUM) (row : Nat → UInt16) :
    (kind.fold F row 0).value = exactTerm kind (Fp32.fp16ToFp32 (row 0)) := by
  rcases hk with rfl | rfl
  · rfl
  · exact hF.mul _ _

theorem fold_exact_succ (hF : ExactArith F) {kind : ReduceKind} (hk : kind = .SUM ∨
    kind = .SQUARE_SUM) (row : Nat → UInt16) (n : Nat) :
    (kind.fold F row (n + 1)).value
      = (kind.fold F row n).value + exactTerm kind (Fp32.fp16ToFp32 (row (n + 1))) := by
  rcases hk with rfl | rfl
  · exact hF.add _ _
  · show Fp32.add _ (Fp32.mul _ _) = _
    rw [hF.add, hF.mul]
    rfl

/-- A row of zeros and a one at column `c`, summed. -/
theorem fold_exact_single (hF : ExactArith F) {kind : ReduceKind} (hk : kind = .SUM ∨
    kind = .SQUARE_SUM) (c n : Nat) :
    (kind.fold F (singleRow c 0x3C00) n).value = if c ≤ n then 1 else 0 := by
  have hterm : ∀ j, exactTerm kind (Fp32.fp16ToFp32 (singleRow c 0x3C00 j) : F)
      = if j = c then 1 else 0 := by
    intro j
    rw [singleRow]
    by_cases hj : j = c
    · rw [if_pos hj, if_pos hj, hF.readOne]
      rcases hk with rfl | rfl
      · rfl
      · exact mul_one 1
    · rw [if_neg hj, if_neg hj, hF.readZero]
      rcases hk with rfl | rfl
      · rfl
      · exact mul_zero 0
  induction n with
  | zero =>
      rw [fold_exact_zero hF hk, hterm]
      by_cases hc : c = 0
      · rw [if_pos hc.symm, if_pos (by omega)]
      · rw [if_neg (Ne.symm hc), if_neg (by omega)]
  | succ n ih =>
      rw [fold_exact_succ hF hk, ih, hterm]
      rcases Nat.lt_trichotomy c (n + 1) with hlt | heq | hgt
      · rw [if_pos (by omega), if_neg (by omega), if_pos (by omega), add_zero]
      · rw [if_neg (by omega), if_pos heq.symm, if_pos (by omega), zero_add]
      · rw [if_neg (by omega), if_neg (by omega), if_neg (by omega), add_zero]

end Exact

/-! ### On patterns -/

section Patterns

variable [FloatArith]

/-- Narrowing keeps the number; so it is with every widened pattern. -/
def Narrows (a : UInt32) : Prop := binary16.rank (fp32ToFp16 a).toNat = floatRank a

omit [FloatArith] in
theorem narrows_fp16ToFp32 (h : UInt16) : Narrows (fp16ToFp32 h) :=
  (sameFloat_narrow h).trans (floatRank_fp16ToFp32 h).symm

omit [FloatArith] in
theorem narrows_quietNaN : Narrows 0x7FC00000 :=
  (Format.rank_eq_top.mpr (by decide +kernel)).trans
    (Format.rank_eq_top.mpr (by decide +kernel)).symm

theorem Narrows.reduceMax {a b : UInt32} (ha : Narrows a) (hb : Narrows b) :
    Narrows (Runtime.reduceMax a b) := by
  rcases reduceMax_cases a b with ⟨-, hr⟩ | ⟨-, -, ⟨hr, -⟩ | ⟨hr, -⟩⟩
  · rw [hr]
    exact narrows_quietNaN
  · rwa [hr]
  · rwa [hr]

/-- `maxnumf`: a NaN operand is dropped. -/
def maxNum (a b : UInt32) : UInt32 :=
  if isnan a then b else if isnan b then a else reduceMax a b

theorem Narrows.maxNum {a b : UInt32} (ha : Narrows a) (hb : Narrows b) :
    Narrows (Compiler.maxNum a b) := by
  unfold Compiler.maxNum
  split_ifs
  · exact hb
  · exact ha
  · exact ha.reduceMax hb

/-- **The two maxima**: the element and the value so far, in either order. -/
theorem ReduceBody.eval_max {root : ScalarExpr} (h : ReduceBody .MAX root)
    (args unknown : Nat → UInt32) :
    ∃ a b, ((a = args 0 ∧ b = args 1) ∨ (a = args 1 ∧ b = args 0))
      ∧ root.eval args unknown = if root.isMaxNum then maxNum a b else reduceMax a b := by
  cases h with
  | maximumf hlr =>
      rcases hlr with ⟨rfl, rfl⟩ | ⟨rfl, rfl⟩
      · exact ⟨_, _, .inl ⟨rfl, rfl⟩, rfl⟩
      · exact ⟨_, _, .inr ⟨rfl, rfl⟩, rfl⟩
  | maxnumf hlr =>
      rcases hlr with ⟨rfl, rfl⟩ | ⟨rfl, rfl⟩
      · exact ⟨_, _, .inl ⟨rfl, rfl⟩, rfl⟩
      · exact ⟨_, _, .inr ⟨rfl, rfl⟩, rfl⟩

theorem ReduceBody.narrows {root : ScalarExpr} (h : ReduceBody .MAX root)
    {args unknown : Nat → UInt32} (h0 : Narrows (args 0)) (h1 : Narrows (args 1)) :
    Narrows (root.eval args unknown) := by
  obtain ⟨a, b, hab, heval⟩ := h.eval_max args unknown
  have hN : Narrows a ∧ Narrows b := by
    rcases hab with ⟨rfl, rfl⟩ | ⟨rfl, rfl⟩
    · exact ⟨h0, h1⟩
    · exact ⟨h1, h0⟩
  rw [heval]
  split_ifs
  · exact hN.1.maxNum hN.2
  · exact hN.1.reduceMax hN.2

/-- `maximumf` takes the maximum by value, NaN above all. -/
theorem ReduceBody.rank_maximum {root : ScalarExpr} (h : ReduceBody .MAX root)
    (hmax : root.isMaxNum = false) (args unknown : Nat → UInt32) :
    floatRank (root.eval args unknown) = max (floatRank (args 1)) (floatRank (args 0)) := by
  obtain ⟨a, b, hab, heval⟩ := h.eval_max args unknown
  rw [heval, hmax, if_neg Bool.false_ne_true, floatRank_reduceMax]
  rcases hab with ⟨rfl, rfl⟩ | ⟨rfl, rfl⟩
  · exact max_comm _ _
  · rfl

theorem floatRank_maxNum (a b : UInt32) :
    floatRank (maxNum a b) = if isnan a then floatRank b else if isnan b then floatRank a
      else max (floatRank a) (floatRank b) := by
  unfold maxNum
  split_ifs
  · rfl
  · rfl
  · exact floatRank_reduceMax a b

theorem maxNum_rank_comm (a b : UInt32) : floatRank (maxNum a b) = floatRank (maxNum b a) := by
  have htop : ∀ x, isnan x = true → floatRank x = ⊤ := fun x => Format.rank_eq_top.mpr
  rw [floatRank_maxNum, floatRank_maxNum]
  by_cases ha : isnan a = true
  · by_cases hb : isnan b = true
    · rw [if_pos ha, if_pos hb, htop a ha, htop b hb]
    · rw [if_pos ha, if_neg hb, if_pos ha]
  · by_cases hb : isnan b = true
    · rw [if_neg ha, if_pos hb, if_pos hb]
    · rw [if_neg ha, if_neg hb, if_neg hb, if_neg ha, max_comm]

/-- `maxnumf` as the value so far sees it. -/
theorem ReduceBody.rank_maxNum {root : ScalarExpr} (h : ReduceBody .MAX root)
    (hmax : root.isMaxNum = true) (args unknown : Nat → UInt32) :
    floatRank (root.eval args unknown) = floatRank (maxNum (args 1) (args 0)) := by
  obtain ⟨a, b, hab, heval⟩ := h.eval_max args unknown
  rw [heval, hmax, if_pos rfl]
  rcases hab with ⟨rfl, rfl⟩ | ⟨rfl, rfl⟩
  · exact maxNum_rank_comm _ _
  · rfl

/-- The executor's fold of a row is its largest element. -/
theorem floatRank_fold_max (row : Nat → UInt16) (n : Nat) :
    floatRank (ReduceKind.MAX.fold UInt32 row n).value
      = foldRow max (fun j => binary16.rank (row j).toNat) n := by
  rw [fold_max]
  have hmap := foldRow_map floatRank_reduceMax (fun j => fp16ToFp32 (row j)) n
  simp only [floatRank_fp16ToFp32] at hmap
  exact hmap

theorem narrows_fold_max (row : Nat → UInt16) (n : Nat) :
    Narrows (ReduceKind.MAX.fold UInt32 row n).value := by
  induction n with
  | zero => exact narrows_fp16ToFp32 _
  | succ n ih => exact ih.reduceMax (narrows_fp16ToFp32 _)

end Patterns

/-! ## The accepted operation -/

/-- What `GenericReduceLowering` has matched, of what the proofs need. -/
structure ReduceMatch (op : GenericOp) (root : ScalarExpr) (kind : ReduceKind)
    (src dst : Value) (m0 m1 : AffineMap) : Prop where
  inputs : op.inputs = [src]
  outputs : op.outputs = [dst]
  maps : op.maps = [m0, m1]
  identity : isIdentityMap m0 = true
  body : ReduceBody kind root

theorem convertOp_reduce {op : GenericOp} {kind : ReduceKind} {src dst : Value}
    {root : ScalarExpr} {rest : List ScalarExpr} (hroot : op.yields = root :: rest)
    (h : convertOp (.generic op) = some (.reduce kind src dst false)) :
    (∃ m0 m1, ReduceMatch op root kind src dst m0 m1)
      ∧ (Lowering.reduce kind src dst false).verify = true := by
  obtain ⟨hverify, hm | hm | hm⟩ := convertOp_generic h
  · obtain ⟨_, _, _, _, hm⟩ := matchEwiseBroadcast_kind hm
    cases hm
  · obtain ⟨_, _, _, hl, _⟩ := matchAct_some hroot hm
    cases hl
  · refine ⟨?_, hverify⟩
    unfold matchGenericReduce at hm
    split at hm
    case h_2 => cases hm
    case h_1 src' dst' m0 m1 root' rest' hin hout _ hmaps hy =>
      rw [hroot] at hy
      cases hy
      simp only [Option.bind_eq_bind, Option.bind_eq_some_iff, Option.guard_eq_some',
        Option.pure_def, Option.some.injEq, Lowering.reduce.injEq] at hm
      obtain ⟨_, hid, _, -, k, hk, rfl, rfl, rfl, -⟩ := hm
      exact ⟨m0, m1, hin, hout, hmaps, hid, matchReduceBody_some hk⟩

section Match

variable {op : GenericOp} {root : ScalarExpr} {kind : ReduceKind} {src dst : Value}
  {m0 m1 : AffineMap} {rows cols : Nat}

theorem ReduceMatch.operand_src (m : ReduceMatch op root kind src dst m0 m1) :
    op.operands[0]? = some src := by
  rw [GenericOp.operands, m.inputs]
  rfl

/-- The loops run over the rows and the columns of the input. -/
theorem ReduceMatch.bounds_eq (m : ReduceMatch op root kind src dst m0 m1)
    (hsrc : src.type.shape = [rows, cols]) {bounds : List Nat}
    (hnest : LoopNest op.operands op.maps bounds) : bounds = [rows, cols] := by
  obtain ⟨hdims, -, hres⟩ := of_decide_eq_true m.identity
  have hmap : op.maps[0]? = some m0 := by
    rw [m.maps]
    rfl
  have hlen : bounds.length = 2 := by
    rw [← (hnest.dims m0 (List.mem_of_getElem? hmap)).1, hdims]
  have hrow := hnest.range 0 src m0 m.operand_src hmap 0 0 (by rw [hres]; rfl)
  have hcol := hnest.range 0 src m0 m.operand_src hmap 1 1 (by rw [hres]; rfl)
  rw [hsrc] at hrow hcol
  match bounds, hlen with
  | [r, c], _ =>
      cases hrow
      cases hcol
      rfl

/-- The input is read row by row. -/
theorem ReduceMatch.position_src (m : ReduceMatch op root kind src dst m0 m1)
    (hsrc : src.type.shape = [rows, cols]) (r c : Nat) :
    op.positionAt 0 [r, c] = r * cols + c := by
  rw [GenericOp.positionAt, m.operand_src, m.maps]
  show m0.positionAt src.type.shape [r, c] = _
  rw [hsrc, ← m0.position_eq, position_identity m.identity]

end Match

/-! ## The stream -/

/-- The descriptor of a reduction without an index. -/
def reduceDesc (a : UnaryAddrs) (rows cols : Nat) (kind : ReduceKind) : ReduceParam :=
  { dstAddr := a.dstTile, idxAddr := 0, srcAddr := a.srcTile
    rows := UInt32.ofNat rows, cols := UInt32.ofNat cols, kind := kind.toU32 }

def reduceLines (a : UnaryAddrs) (rows cols : Nat) (kind : ReduceKind) (d : UInt32) :
    List EasmInsn :=
  unaryLines a rows cols rows 1 d (.reduce (slotAt d 1) (reduceDesc a rows cols kind))

section Stream

variable {layout : Layout} {p rows cols : Nat} {src dst : Value} {a : UnaryAddrs}
  {d : UInt32} {kind : ReduceKind}

/-- **The emitted stream.** -/
theorem emitInsts_reduce (hp : UnaryPlacement layout p src (sramTypeOf src) dst a)
    (hsrc : src.type.shape = [rows, cols]) (hdst : dst.type.shape = [rows, 1]) :
    emitInsts layout d (unrollBody (lowerReduce p kind src dst))
      = some (reduceLines a rows cols kind d, slotAt d 3) := by
  have h0 : (tileIn p 0 (sramTypeOf src)).type.dim? 0 = some rows := by
    show src.type.shape[0]? = _
    rw [hsrc]
    rfl
  have h1 : (tileIn p 0 (sramTypeOf src)).type.dim? 1 = some cols := by
    show src.type.shape[1]? = _
    rw [hsrc]
    rfl
  refine emitInsts_unary hp hsrc hdst ?_
  rw [← slotAt_succ d 1]
  simp only [emitOp, emitReduceOp, hp.srcTile, hp.dstTile, h0, h1, Layout.idxAddr?]
  rfl

/-- **The run**: every row is folded. -/
theorem run_reduce {F : Type} [Fp32 F]
    (hp : UnaryPlacement layout p src (sramTypeOf src) dst a)
    (hsrc : src.type.shape = [rows, cols]) (hdst : dst.type.shape = [rows, 1])
    (g : UnaryGeometry a rows cols rows 1 d) (hkind : kind ≠ .ARGMAX) (s : CModel) :
    ∃ s', runEasm F (reduceLines a rows cols kind d) s = .ok s'
      ∧ ∀ i < rows, layout.contents s' dst i = Fp32.fp32ToFp16
          (kind.fold F (fun j => layout.contents s src (i * cols + j)) (cols - 1)).value := by
  obtain ⟨hr, hc, -⟩ := g.input.fields
  have hR : (reduceDesc a rows cols kind).rows.toNat = rows := hr
  have hC : (reduceDesc a rows cols kind).cols.toNat = cols := hc
  have hrows := g.input.rows_pos
  have hcols := g.input.cols_pos
  have houtIn := g.output.tileIn
  have hapart := g.tiles
  rw [Nat.mul_one] at houtIn hapart
  have hplaced : (reduceDesc a rows cols kind).Placed := by
    constructor
    · rw [hR, hC]; exact g.input.tileIn
    · rw [hR]; exact houtIn
    · rw [hR, hC]; exact hapart
    · exact fun hk => absurd (ReduceKind.toU32_inj hk) hkind
  obtain ⟨s', hs', hval⟩ := runEasm_unary (F := F) (s := s)
    (emitInsts_reduce hp hsrc hdst) g rfl nofun
    (v := fun i => Fp32.fp32ToFp16
      (kind.fold F (fun j => ddrElem s a.src.toNat (i * cols + j)) (cols - 1)).value)
    (fun u hu => by
      obtain ⟨u', hu', hw⟩ := reduce_clear (F := F) (s := u) hplaced.resident
        hplaced.clear rfl (ofNat_ne_zero (n := rows) (by have := (UInt32.ofNat rows).toNat_lt; omega) hrows)
        (ofNat_ne_zero (n := cols) (by have := (UInt32.ofNat cols).toNat_lt; omega) hcols)
        (iff_of_false hkind fun h => h rfl)
      refine ⟨u', hu', fun i hi => ?_⟩
      rw [Nat.mul_one] at hi
      have hv : elemAt u' a.dstTile.toNat i = Fp32.fp32ToFp16
          ((reduceDesc a rows cols kind).rowValue F kind u i).value :=
        hw.value i (by rw [hR]; exact hi)
      rw [hv, ReduceParam.rowValue, hC]
      congr 2
      refine ReduceKind.fold_congr fun j hj => ?_
      rw [ReduceParam.srcRow, hC]
      exact hu _ (flat_lt hi (by omega)))
  refine ⟨s', hs', fun i hi => ?_⟩
  rw [Layout.contents_eq hp.dst, hval i (by omega)]
  simp only [Layout.contents_eq hp.src]

end Stream

/-! ## Against the generic -/

/-- The output map picks the row, at every loop point. -/
def RowsPicked (op : GenericOp) (rows cols : Nat) : Prop :=
  ∀ r < rows, ∀ c < cols, op.positionAt 1 [r, c] = r

instance (op : GenericOp) (rows cols : Nat) : Decidable (RowsPicked op rows cols) :=
  inferInstanceAs (Decidable (∀ r < rows, _))

section Sound

variable {F : Type} [Fp32 F]

variable (F) in
/-- **Every output element is the fold of the elements that belong to it**, from
any memory, the output's contents taken as the identity of the combiner. -/
def RowsReduced (same : UInt16 → UInt16 → Prop) (op : GenericOp) (root : ScalarExpr)
    (unknown : Nat → F) (bounds : List Nat) (layout : Layout) (dst : Value)
    (xs : List EasmInsn) : Prop :=
  ∀ s : CModel, ∀ i < dst.type.numElements, ∃ s', runEasm F xs s = .ok s'
    ∧ same (layout.contents s' dst i) (Fp32.fp32ToFp16
      (op.reduceAt (layout.contents s) unknown root root.identity bounds i))

variable (F) in
/-- What a run of the stream leaves: the fold of every row. -/
def ReduceRun (layout : Layout) (kind : ReduceKind) (src dst : Value) (rows cols : Nat)
    (xs : List EasmInsn) : Prop :=
  ∀ s : CModel, ∃ s', runEasm F xs s = .ok s'
    ∧ ∀ i < rows, layout.contents s' dst i = Fp32.fp32ToFp16
        (kind.fold F (fun j => layout.contents s src (i * cols + j)) (cols - 1)).value

variable {op : GenericOp} {root : ScalarExpr} {kind : ReduceKind} {src dst : Value}
  {m0 m1 : AffineMap} {rows cols : Nat} {layout : Layout} {xs : List EasmInsn}
  {unknown : Nat → F}

theorem ReduceRun.at (h : ReduceRun F layout kind src dst rows cols xs) {s s' : CModel}
    (hs' : runEasm F xs s = .ok s') {i : Nat} (hi : i < rows) :
    layout.contents s' dst i = Fp32.fp32ToFp16
      (kind.fold F (fun j => layout.contents s src (i * cols + j)) (cols - 1)).value := by
  obtain ⟨t, ht, hval⟩ := h s
  rw [hs'] at ht
  cases ht
  exact hval i hi

/-- What every point that belongs to element `i` preserves holds of the fold. -/
theorem reduceAt_invariant {mem : Value → Nat → UInt16} {init : F} {bounds : List Nat}
    {i : Nat} (P : F → Prop) (hinit : P init)
    (hstep : ∀ p ∈ points bounds, op.positionAt 1 p = i → ∀ acc, P acc →
      P (op.bodyAt mem unknown root acc p)) :
    P (op.reduceAt mem unknown root init bounds i) := by
  have hall : ∀ p ∈ (points bounds).filter fun p => op.positionAt 1 p = i,
      p ∈ points bounds ∧ op.positionAt 1 p = i := by
    intro p hp
    obtain ⟨hp, hi⟩ := List.mem_filter.mp hp
    exact ⟨hp, of_decide_eq_true hi⟩
  rw [GenericOp.reduceAt]
  generalize (points bounds).filter (fun p => op.positionAt 1 p = i) = ps at hall
  induction ps generalizing init with
  | nil => exact hinit
  | cons p ps ih =>
      obtain ⟨hp, hi⟩ := hall p (List.mem_cons_self ..)
      exact ih (hstep p hp hi init hinit) fun q hq => hall q (List.mem_cons_of_mem p hq)

/-- Rows picked: the points of element `i` are row `i`. -/
theorem reduceAt_row (h : RowsPicked op rows cols) {i : Nat} (hi : i < rows)
    (mem : Value → Nat → UInt16) (init : F) :
    op.reduceAt mem unknown root init [rows, cols] i
      = (rowPoints i cols).foldl (fun acc p => op.bodyAt mem unknown root acc p) init := by
  rw [GenericOp.reduceAt, filter_points_row hi h]

theorem foldl_rowPoints_succ {α : Type} (f : α → List Nat → α) (init : α) (i n : Nat) :
    (rowPoints i (n + 1)).foldl f init = f ((rowPoints i n).foldl f init) [i, n] := by
  rw [rowPoints, List.range_succ, List.map_append, List.foldl_append]
  rfl

/-- The contents that tell a wrong row: a one at `(r, c)`, zeros elsewhere. -/
def oneAt (base cols r c : Nat) : CModel :=
  ddrHolding base fun k => if k = r * cols + c then 0x3C00 else 0

theorem contents_oneAt {addr : UInt32} (haddr : ddrBaseAddr layout src = some addr)
    (r c : Nat) : (fun j => layout.contents (oneAt addr.toNat cols r c) src (r * cols + j))
      = singleRow c 0x3C00 := by
  funext j
  rw [Layout.contents_eq haddr, oneAt, ddrElem_ddrHolding, singleRow]
  by_cases hj : j = c
  · rw [if_pos (by rw [hj]), if_pos hj]
  · rw [if_neg (by omega), if_neg hj]

/-- Points that belong to `r` while `(r, c)` does not read a zero there. -/
theorem ReduceMatch.zero_at (m : ReduceMatch op root kind src dst m0 m1)
    (hsrc : src.type.shape = [rows, cols]) {addr : UInt32}
    (haddr : ddrBaseAddr layout src = some addr) {r c : Nat} (hc : c < cols)
    (hne : op.positionAt 1 [r, c] ≠ r) {p : List Nat} (hp : p ∈ points [rows, cols])
    (hpr : op.positionAt 1 p = r) :
    layout.contents (oneAt addr.toNat cols r c) src (op.positionAt 0 p) = 0 := by
  obtain ⟨r', hr', c', hc', rfl⟩ := mem_points_pair.mp hp
  rw [Layout.contents_eq haddr, oneAt, ddrElem_ddrHolding, m.position_src hsrc]
  refine if_neg fun heq => hne ?_
  -- equal flat indices are equal points
  have hcc : c' = c := by
    rw [← flat_mod (r := r') hc', heq, flat_mod hc]
  have hrr : r' = r := by
    rw [hcc] at heq
    exact Nat.eq_of_mul_eq_mul_right (by omega) (Nat.add_right_cancel heq)
  rw [← hrr, ← hcc]
  rw [hrr] at hpr ⊢
  exact hpr

/-! ### SUM and SQUARE_SUM -/

section Exact

variable [CommSemiring F]

theorem ReduceMatch.body_exact (m : ReduceMatch op root kind src dst m0 m1)
    (hkind : kind ≠ .MAX) (hF : ExactArith F) (mem : Value → Nat → UInt16) (acc : F)
    (p : List Nat) : op.bodyAt mem unknown root acc p
      = acc + exactTerm kind (Fp32.fp16ToFp32 (mem src (op.positionAt 0 p))) := by
  obtain ⟨h0, h1⟩ := op.argsAt_unary m.inputs mem acc p
  exact (m.body.exact hkind hF _ unknown).trans
    (congrArg₂ (· + ·) h1 (congrArg (exactTerm kind) h0))

theorem ReduceMatch.sums (m : ReduceMatch op root kind src dst m0 m1) (hkind : kind ≠ .MAX) :
    kind = .SUM ∨ kind = .SQUARE_SUM := by
  cases m.body with
  | sum => exact .inl rfl
  | squareSum => exact .inr rfl
  | maximumf => exact absurd rfl hkind
  | maxnumf => exact absurd rfl hkind

/-- **Rows summed if and only if rows picked.** -/
theorem rowsSummed_iff [Nontrivial F] (m : ReduceMatch op root kind src dst m0 m1)
    (hkind : kind ≠ .MAX) (hF : ExactArith F) (hsrc : src.type.shape = [rows, cols])
    (hdst : dst.type.numElements = rows) {addr : UInt32}
    (haddr : ddrBaseAddr layout src = some addr) (hcols : 0 < cols)
    (hrun : ReduceRun F layout kind src dst rows cols xs) :
    RowsReduced F (· = ·) op root unknown [rows, cols] layout dst xs
      ↔ RowsPicked op rows cols := by
  have hk := m.sums hkind
  constructor
  · intro h r hr c hc
    by_contra hne
    obtain ⟨s', hs', hsum⟩ := h (oneAt addr.toNat cols r c) r (by rw [hdst]; exact hr)
    -- none of the points that belong to `r` reads the one
    have hzero : op.reduceAt (layout.contents (oneAt addr.toNat cols r c)) unknown root
        (root.identity : F) [rows, cols] r = 0 := by
      refine reduceAt_invariant (· = 0) (m.body.identity_exact hkind hF) ?_
      rintro p hp hpr acc rfl
      rw [m.body_exact hkind hF, m.zero_at hsrc haddr hc hne hp hpr, hF.readZero, zero_add]
      rcases hk with rfl | rfl
      · rfl
      · exact mul_zero 0
    rw [hrun.at hs' hr, contents_oneAt haddr, fold_exact_single hF hk, if_pos (by omega),
      hzero] at hsum
    have hone := congrArg (Fp32.fp16ToFp32 : UInt16 → F) hsum
    rw [hF.writeOne, hF.writeZero] at hone
    exact one_ne_zero hone
  · intro h s i hi
    rw [hdst] at hi
    obtain ⟨s', hs', hval⟩ := hrun s
    refine ⟨s', hs', (hval i hi).trans ?_⟩
    obtain ⟨n, rfl⟩ : ∃ n, cols = n + 1 := ⟨cols - 1, by omega⟩
    rw [reduceAt_row h hi, Nat.add_sub_cancel]
    congr 1
    -- the fold of the row, and that of its points
    have hfold : ∀ k, (kind.fold F (fun j => layout.contents s src (i * (n + 1) + j)) k).value
        = (rowPoints i (k + 1)).foldl
          (fun acc p => op.bodyAt (layout.contents s) unknown root acc p)
          (root.identity : F) := by
      intro k
      induction k with
      | zero =>
          rw [fold_exact_zero hF hk, foldl_rowPoints_succ, m.body_exact hkind hF,
            m.position_src hsrc]
          show _ = root.identity + _
          rw [m.body.identity_exact hkind hF, zero_add]
      | succ k ih =>
          rw [fold_exact_succ hF hk, foldl_rowPoints_succ, m.body_exact hkind hF,
            m.position_src hsrc, ih]
    exact hfold n

end Exact

end Sound

/-! ### MAX -/

section Max

variable [FloatArith] {op : GenericOp} {root : ScalarExpr} {src dst : Value}
  {m0 m1 : AffineMap} {rows cols : Nat} {layout : Layout} {xs : List EasmInsn}
  {unknown : Nat → UInt32}

theorem ReduceMatch.narrows_body (m : ReduceMatch op root .MAX src dst m0 m1)
    (mem : Value → Nat → UInt16) {acc : UInt32} (hacc : Narrows acc) (p : List Nat) :
    Narrows (op.bodyAt mem unknown root acc p) := by
  obtain ⟨h0, h1⟩ := op.argsAt_unary m.inputs mem acc p
  refine m.body.narrows ?_ ?_
  · rw [h0]
    exact narrows_fp16ToFp32 _
  · rw [h1]
    exact hacc

theorem ReduceMatch.rank_body (m : ReduceMatch op root .MAX src dst m0 m1)
    (hmax : root.isMaxNum = false) (mem : Value → Nat → UInt16) (acc : UInt32)
    (p : List Nat) : floatRank (op.bodyAt mem unknown root acc p)
      = max (floatRank acc) (binary16.rank (mem src (op.positionAt 0 p)).toNat) := by
  obtain ⟨h0, h1⟩ := op.argsAt_unary m.inputs mem acc p
  refine (m.body.rank_maximum hmax _ unknown).trans ?_
  rw [h0, h1]
  exact congrArg _ (floatRank_fp16ToFp32 _)

theorem ReduceMatch.rank_body_maxNum (m : ReduceMatch op root .MAX src dst m0 m1)
    (hmax : root.isMaxNum = true) (mem : Value → Nat → UInt16) (acc : UInt32)
    (p : List Nat) : floatRank (op.bodyAt mem unknown root acc p)
      = floatRank (maxNum acc (fp16ToFp32 (mem src (op.positionAt 0 p)))) := by
  obtain ⟨h0, h1⟩ := op.argsAt_unary m.inputs mem acc p
  refine (m.body.rank_maxNum hmax _ unknown).trans ?_
  rw [h0, h1]
  rfl

omit [FloatArith] in
theorem floatRank_quietNaN : floatRank 0x7FC00000 = ⊤ :=
  Format.rank_eq_top.mpr (by decide +kernel)

theorem ReduceBody.narrows_identity (h : ReduceBody .MAX root) :
    Narrows (root.identity : UInt32) := by
  cases h with
  | maximumf => exact narrows_fp16ToFp32 0xFC00
  | maxnumf => exact narrows_quietNaN

/-- Nothing is below the identity of `maximumf`. -/
theorem ReduceBody.identity_le (h : ReduceBody .MAX root) (hmax : root.isMaxNum = false)
    (r : WithTop Extended) : floatRank (root.identity : UInt32) ≤ r := by
  cases h with
  | maximumf =>
      have hbot : floatRank (fp16ToFp32 0xFC00) = ((⊥ : Extended) : WithTop Extended) := by
        decide +kernel
      show floatRank (fp16ToFp32 0xFC00) ≤ r
      rw [hbot]
      cases r with
      | top => exact le_top
      | coe r => exact WithTop.coe_le_coe.mpr bot_le
  | maxnumf => cases hmax

theorem ReduceBody.identity_maxNum (h : ReduceBody .MAX root) (hmax : root.isMaxNum = true) :
    (root.identity : UInt32) = 0x7FC00000 := by
  cases h with
  | maximumf => cases hmax
  | maxnumf => rfl

/-- The spec's fold narrows. -/
theorem ReduceMatch.narrows_reduceAt (m : ReduceMatch op root .MAX src dst m0 m1)
    (mem : Value → Nat → UInt16) (bounds : List Nat) (i : Nat) :
    Narrows (op.reduceAt mem unknown root root.identity bounds i) :=
  reduceAt_invariant Narrows m.body.narrows_identity
    fun p _ _ _ hacc => m.narrows_body mem hacc p

omit [FloatArith] in
/-- Same results, by rank. -/
theorem sameFloat_iff_rank {x y : UInt32} (hx : Narrows x) (hy : Narrows y) :
    SameFloat (fp32ToFp16 x) (fp32ToFp16 y) ↔ floatRank x = floatRank y := by
  rw [SameFloat, show _ = _ from hx, show _ = _ from hy]

/-- A fold of zeros: at most zero, or NaN. -/
theorem ReduceMatch.rank_zeros (m : ReduceMatch op root .MAX src dst m0 m1)
    {mem : Value → Nat → UInt16} {u : Nat → UInt32} {bounds : List Nat} {i : Nat}
    (hzero : ∀ p ∈ points bounds, op.positionAt 1 p = i → mem src (op.positionAt 0 p) = 0) :
    floatRank (op.reduceAt mem u root root.identity bounds i) ≤ 0
      ∨ floatRank (op.reduceAt mem u root root.identity bounds i) = ⊤ := by
  refine reduceAt_invariant (fun x => floatRank x ≤ 0 ∨ floatRank x = ⊤) ?_ ?_
  · cases hmax : root.isMaxNum with
    | false => exact .inl (m.body.identity_le hmax 0)
    | true =>
        rw [m.body.identity_maxNum hmax]
        exact .inr floatRank_quietNaN
  · intro p hp hpi acc hacc
    have hx := hzero p hp hpi
    have hzero' : floatRank (fp16ToFp32 0) = 0 :=
      (floatRank_fp16ToFp32 0).trans rank_zero_half
    cases hmax : root.isMaxNum with
    | false =>
        rw [m.rank_body hmax, hx, rank_zero_half]
        rcases hacc with hacc | hacc
        · exact .inl (max_le hacc le_rfl)
        · rw [hacc]
          exact .inr (max_eq_left le_top)
    | true =>
        rw [m.rank_body_maxNum hmax, hx, floatRank_maxNum, hzero']
        split_ifs
        · exact .inl le_rfl
        · exact hacc
        · rcases hacc with hacc | hacc
          · exact .inl (max_le hacc le_rfl)
          · rw [hacc]
            exact .inr (max_eq_left le_top)

/-- A one in the row: its largest element is that number. -/
theorem rank_fold_single {c n : Nat} (hc : c ≤ n) :
    ¬ floatRank (ReduceKind.MAX.fold UInt32 (singleRow c 0x3C00) n).value ≤ 0
      ∧ floatRank (ReduceKind.MAX.fold UInt32 (singleRow c 0x3C00) n).value ≠ ⊤ := by
  have hone : ¬ binary16.rank (0x3C00 : UInt16).toNat ≤ 0
      ∧ binary16.rank (0x3C00 : UInt16).toNat ≠ ⊤ := by decide +kernel
  rw [floatRank_fold_max]
  obtain ⟨hle, j, -, hj⟩ := foldRow_max
    (fun j => binary16.rank (singleRow c 0x3C00 j).toNat) n
  have hle := hle c hc
  have hat : singleRow c 0x3C00 c = 0x3C00 := if_pos rfl
  rw [hat] at hle
  refine ⟨fun h => hone.1 (hle.trans h), ?_⟩
  rw [hj, singleRow]
  split_ifs
  · exact hone.2
  · rw [rank_zero_half]
    exact WithTop.zero_ne_top

/-- **Row maxima if and only if rows are picked** and a `maxnumf` has no second
element to drop. -/
theorem rowsMax_iff (m : ReduceMatch op root .MAX src dst m0 m1)
    (hsrc : src.type.shape = [rows, cols]) (hdst : dst.type.numElements = rows)
    {addr : UInt32} (haddr : ddrBaseAddr layout src = some addr) (hrows : 0 < rows)
    (hcols : 0 < cols) (hrun : ReduceRun UInt32 layout .MAX src dst rows cols xs) :
    RowsReduced UInt32 SameFloat op root unknown [rows, cols] layout dst xs
      ↔ RowsPicked op rows cols ∧ (root.isMaxNum = true → cols = 1) := by
  -- results are compared by rank
  have hcompare : ∀ s i n, SameFloat (fp32ToFp16 (ReduceKind.MAX.fold UInt32
        (fun j => layout.contents s src (i * cols + j)) n).value)
      (fp32ToFp16 (op.reduceAt (layout.contents s) unknown root root.identity
        [rows, cols] i))
      ↔ floatRank (ReduceKind.MAX.fold UInt32
          (fun j => layout.contents s src (i * cols + j)) n).value
        = floatRank (op.reduceAt (layout.contents s) unknown root root.identity
          [rows, cols] i) := fun s i n =>
    sameFloat_iff_rank (narrows_fold_max _ n) (m.narrows_reduceAt _ _ i)
  obtain ⟨n, hn⟩ : ∃ n, cols = n + 1 := ⟨cols - 1, by omega⟩
  have hlast : cols - 1 = n := by omega
  constructor
  · intro h
    have hpicked : RowsPicked op rows cols := by
      intro r hr c hc
      by_contra hne
      obtain ⟨s', hs', hmax⟩ := h (oneAt addr.toNat cols r c) r (by rw [hdst]; exact hr)
      rw [hrun.at hs' hr] at hmax
      have hrank := (hcompare _ _ _).mp hmax
      rw [contents_oneAt haddr] at hrank
      obtain ⟨hpos, htop⟩ := rank_fold_single (c := c) (n := cols - 1) (by omega)
      rw [hrank] at hpos htop
      rcases m.rank_zeros (u := unknown) fun p hp hpr =>
        m.zero_at hsrc haddr hc hne hp hpr with hle | hnan
      · exact hpos hle
      · exact htop hnan
    refine ⟨hpicked, fun hmaxNum => ?_⟩
    by_contra hone
    obtain ⟨k, rfl⟩ : ∃ k, n = k + 1 := ⟨n - 1, by omega⟩
    -- a NaN in front of a row of ones
    let mem := ddrHolding addr.toNat fun i => if i = 0 then 0x7E00 else 0x3C00
    have hmem : ∀ i, layout.contents mem src i = if i = 0 then 0x7E00 else 0x3C00 :=
      fun i => (Layout.contents_eq haddr mem i).trans (ddrElem_ddrHolding _ _ i)
    obtain ⟨s', hs', hmax⟩ := h mem 0 (by rw [hdst]; exact hrows)
    rw [hrun.at hs' hrows] at hmax
    have hrank := (hcompare _ _ _).mp hmax
    have htop : floatRank (ReduceKind.MAX.fold UInt32
        (fun j => layout.contents mem src (0 * cols + j)) (cols - 1)).value = ⊤ := by
      rw [floatRank_fold_max]
      have hle := (foldRow_max
        (fun j => binary16.rank (layout.contents mem src (0 * cols + j)).toNat) (cols - 1)).1 0
        (Nat.zero_le _)
      rw [hmem, if_pos (by omega)] at hle
      exact top_le_iff.mp ((Format.rank_eq_top.mpr (by decide +kernel)).symm.trans_le hle)
    rw [htop, reduceAt_row hpicked hrows, hn, foldl_rowPoints_succ,
      m.rank_body_maxNum hmaxNum, m.position_src hsrc, hmem, if_neg (by omega),
      floatRank_maxNum] at hrank
    have hnumber : floatRank (fp16ToFp32 0x3C00) ≠ ⊤ := by decide +kernel
    split_ifs at hrank with hacc hx
    · exact hnumber hrank.symm
    · exact hnumber (Format.rank_eq_top.mpr hx)
    · rcases max_choice (floatRank ((rowPoints 0 (k + 1)).foldl
        (fun acc p => op.bodyAt (layout.contents mem) unknown root acc p) root.identity))
        (floatRank (fp16ToFp32 0x3C00)) with hm | hm
      · rw [hm] at hrank
        exact hacc (Format.rank_eq_top.mp hrank.symm)
      · rw [hm] at hrank
        exact hnumber hrank.symm
  · rintro ⟨hpicked, hone⟩ s i hi
    rw [hdst] at hi
    obtain ⟨s', hs', hval⟩ := hrun s
    refine ⟨s', hs', ?_⟩
    rw [hval i hi]
    refine (hcompare s i _).mpr ?_
    rw [hlast, reduceAt_row hpicked hi, hn]
    cases hmaxNum : root.isMaxNum with
    | true =>
        obtain rfl : n = 0 := by have := hone hmaxNum; omega
        rw [foldl_rowPoints_succ, m.rank_body_maxNum hmaxNum, m.position_src hsrc,
          floatRank_fold_max]
        show binary16.rank _ = floatRank (maxNum root.identity _)
        rw [m.body.identity_maxNum hmaxNum, floatRank_maxNum, if_pos (by decide +kernel),
          floatRank_fp16ToFp32, hn]
    | false =>
        -- the fold of the row, and that of its points
        have hfold : ∀ k, floatRank (ReduceKind.MAX.fold UInt32
              (fun j => layout.contents s src (i * (n + 1) + j)) k).value
            = floatRank ((rowPoints i (k + 1)).foldl
              (fun acc p => op.bodyAt (layout.contents s) unknown root acc p)
              root.identity) := by
          intro k
          induction k with
          | zero =>
              rw [floatRank_fold_max, foldl_rowPoints_succ, m.rank_body hmaxNum,
                m.position_src hsrc, hn]
              exact (max_eq_right (m.body.identity_le hmaxNum _)).symm
          | succ k ih =>
              rw [floatRank_fold_max, foldRow_succ, ← floatRank_fold_max, ih,
                foldl_rowPoints_succ _ _ i (k + 1), m.rank_body hmaxNum, m.position_src hsrc, hn]
        exact hfold n

end Max

/-- **When row-wise reduction matching is sound**: the emitted stream leaves in
every output element the fold of the elements that belong to it if and only if
the output map picks the row at every loop point; for MAX, moreover, the body
is a `maximumf` unless the rows have a single element. -/
theorem genericReduce_sound_iff {op : GenericOp} {root : ScalarExpr}
    {rest : List ScalarExpr} {kind : ReduceKind} {src dst : Value}
    (hroot : op.yields = root :: rest)
    (hconv : convertOp (.generic op) = some (.reduce kind src dst false))
    {bounds : List Nat} (hnest : LoopNest op.operands op.maps bounds) {rows cols : Nat}
    (hshape : src.type.shape = [rows, cols]) {layout : Layout} {p : Nat} {a : UnaryAddrs}
    {d : UInt32} (hp : UnaryPlacement layout p src (sramTypeOf src) dst a)
    (g : UnaryGeometry a rows cols rows 1 d) :
    ∃ xs next, emitInsts layout d (unrollBody (lowerReduce p kind src dst)) = some (xs, next)
      ∧ (kind = .MAX → ∀ [FloatArith] (unknown : Nat → UInt32),
        RowsReduced UInt32 SameFloat op root unknown bounds layout dst xs
          ↔ RowsPicked op rows cols ∧ (root.isMaxNum = true → cols = 1))
      ∧ (kind ≠ .MAX → ∀ (F : Type) [Fp32 F] [CommSemiring F] [Nontrivial F],
        ExactArith F → ∀ unknown : Nat → F,
          RowsReduced F (· = ·) op root unknown bounds layout dst xs
            ↔ RowsPicked op rows cols) := by
  obtain ⟨⟨m0, m1, m⟩, hverify⟩ := convertOp_reduce hroot hconv
  simp only [Lowering.verify, hshape, Bool.and_eq_true, decide_eq_true_eq,
    Bool.false_eq_true, if_false] at hverify
  have hdst : dst.type.shape = [rows, 1] := hverify.2
  have hrows := g.input.rows_pos
  have hcols := g.input.cols_pos
  have hn : dst.type.numElements = rows := by rw [numElements_pair hdst, Nat.mul_one]
  obtain rfl := m.bounds_eq hshape hnest
  have hkind : kind ≠ .ARGMAX := by
    rintro rfl
    cases m.body
  refine ⟨_, _, emitInsts_reduce hp hshape hdst, ?_, ?_⟩
  · rintro rfl _ unknown
    exact rowsMax_iff m hshape hn hp.src hrows hcols
      (run_reduce hp hshape hdst g hkind)
  · intro hmax F _ _ _ hF unknown
    exact rowsSummed_iff m hmax hF hshape hn hp.src hcols
      (run_reduce hp hshape hdst g hkind)

/-! ### A 2x2 reduction, spelled right and wrong -/

def reduceSrc : Value := .blockArg 0 0 (f16Type 2 2)
def reduceDst : Value := .alloc ⟨0, .user 0⟩ (f16Type 2 1) (some 64)

/-- `out[row, 0] = body(in[d0, d1], out[row, 0])`. -/
def reduceOf (row : AffineExpr) (body : ScalarExpr) : GenericOp :=
  { inputs := [reduceSrc], outputs := [reduceDst]
    maps := [⟨2, 0, [.dim 0, .dim 1]⟩, ⟨2, 0, [row, .const 0]⟩]
    iterators := [.parallel, .reduction], yields := [body] }

def reduceLayout : Layout :=
  [(tileIn 0 0 (sramTypeOf reduceSrc), .sram 0x10000000),
    (tileOut 0 (sramTypeOf reduceDst), .sram 0x10000020),
    (reduceSrc, .ddr 0x40010000), (reduceDst, .ddr 0x40020000)]

theorem reducePlacement :
    UnaryPlacement reduceLayout 0 reduceSrc (sramTypeOf reduceSrc) reduceDst reluAddrs := by
  constructor <;> rfl

theorem reduceGeometry : UnaryGeometry reluAddrs 2 2 2 1 DESC_STARTADDR := by
  refine ⟨?_, ?_, by decide, by decide, by decide, by decide⟩
  · constructor <;> decide
  · constructor <;> decide

theorem reduceNest {row : AffineExpr} (body : ScalarExpr)
    (hrow : row = .dim 0 ∨ row = .dim 1) :
    LoopNest (reduceOf row body).operands (reduceOf row body).maps [2, 2] := by
  have hcases : ∀ (k : Nat) (v : Value) (m : AffineMap),
      (reduceOf row body).operands[k]? = some v → (reduceOf row body).maps[k]? = some m →
        (v = reduceSrc ∧ m = ⟨2, 0, [.dim 0, .dim 1]⟩)
          ∨ (v = reduceDst ∧ m = ⟨2, 0, [row, .const 0]⟩) := by
    intro k v m hv hm
    match k, hv, hm with
    | 0, hv, hm => cases hv; cases hm; exact .inl ⟨rfl, rfl⟩
    | 1, hv, hm => cases hv; cases hm; exact .inr ⟨rfl, rfl⟩
  refine ⟨rfl, ?_, ?_, ?_⟩
  · intro m hm
    simp only [reduceOf, List.mem_cons, List.not_mem_nil, or_false] at hm
    rcases hm with rfl | rfl
    · exact ⟨rfl, rfl⟩
    · exact ⟨rfl, rfl⟩
  · intro k v m hv hm i j hij
    rcases hcases k v m hv hm with ⟨rfl, rfl⟩ | ⟨rfl, rfl⟩
    · match j, hij with
      | 0, hij | 1, hij => cases hij; rfl
    · match j, hij with
      | 0, hij =>
          rcases hrow with rfl | rfl
          · cases hij
            rfl
          · cases hij
            rfl
      | 1, hij => cases hij
  · intro p hp k v m hv hm
    obtain ⟨r, hr, c, hc, rfl⟩ := mem_points_pair.mp hp
    have hd0 : (0 : Int) ≤ (r : Int) ∧ (r : Int) < (2 : Nat) := by omega
    have hd1 : (0 : Int) ≤ (c : Int) ∧ (c : Int) < (2 : Nat) := by omega
    have hzero : (0 : Int) ≤ 0 ∧ (0 : Int) < (1 : Nat) := by decide
    rcases hcases k v m hv hm with ⟨rfl, rfl⟩ | ⟨rfl, rfl⟩
    · exact .cons hd0 (.cons hd1 .nil)
    · rcases hrow with rfl | rfl
      · exact .cons hd0 (.cons hzero .nil)
      · exact .cons hd1 (.cons hzero .nil)

/-- The sum of every row. -/
theorem genericReduce_sound_iff_sum :
    ∃ xs next, emitInsts reduceLayout DESC_STARTADDR
        (unrollBody (lowerReduce 0 .SUM reduceSrc reduceDst)) = some (xs, next)
      ∧ @RowsReduced Int Fp32.integers (· = ·) (reduceOf (.dim 0) (.addf (.arg 0) (.arg 1)))
          (.addf (.arg 0) (.arg 1)) (fun _ => 0) [2, 2] reduceLayout reduceDst xs := by
  obtain ⟨xs, next, hemit, -, hiff⟩ := @genericReduce_sound_iff
    (reduceOf (.dim 0) (.addf (.arg 0) (.arg 1))) _ _ .SUM reduceSrc reduceDst rfl rfl _
    (reduceNest _ (.inl rfl)) _ _ rfl _ _ _ _ reducePlacement reduceGeometry
  exact ⟨xs, next, hemit, (@hiff (by decide) Int Fp32.integers _ _ integers_exact
    (fun _ => 0)).mpr (by decide)⟩

/-- **Wrong rows, and a NaN kept**: a sum over the columns and a `maxnumf` are
accepted as row-wise SUM and MAX, and are neither. -/
theorem reduce_not_generic :
    convertOp (.generic (reduceOf (.dim 1) (.addf (.arg 0) (.arg 1))))
        = some (.reduce .SUM reduceSrc reduceDst false)
      ∧ convertOp (.generic (reduceOf (.dim 0) (.maxnumf (.arg 0) (.arg 1))))
        = some (.reduce .MAX reduceSrc reduceDst false)
      ∧ (∃ xs next, emitInsts reduceLayout DESC_STARTADDR
          (unrollBody (lowerReduce 0 .SUM reduceSrc reduceDst)) = some (xs, next)
        ∧ ¬ @RowsReduced Int Fp32.integers (· = ·)
            (reduceOf (.dim 1) (.addf (.arg 0) (.arg 1))) (.addf (.arg 0) (.arg 1))
            (fun _ => 0) [2, 2] reduceLayout reduceDst xs)
      ∧ ∃ xs next, emitInsts reduceLayout DESC_STARTADDR
          (unrollBody (lowerReduce 0 .MAX reduceSrc reduceDst)) = some (xs, next)
        ∧ ¬ @RowsReduced UInt32 (@binary32Ops exactArith) SameFloat
            (reduceOf (.dim 0) (.maxnumf (.arg 0) (.arg 1))) (.maxnumf (.arg 0) (.arg 1))
            (fun _ => 0) [2, 2] reduceLayout reduceDst xs := by
  have hsum : ReduceMatch (reduceOf (.dim 1) (.addf (.arg 0) (.arg 1)))
      (.addf (.arg 0) (.arg 1)) .SUM reduceSrc reduceDst ⟨2, 0, [.dim 0, .dim 1]⟩
      ⟨2, 0, [.dim 1, .const 0]⟩ := ⟨rfl, rfl, rfl, rfl, .sum (.inl ⟨rfl, rfl⟩)⟩
  have hmax : ReduceMatch (reduceOf (.dim 0) (.maxnumf (.arg 0) (.arg 1)))
      (.maxnumf (.arg 0) (.arg 1)) .MAX reduceSrc reduceDst ⟨2, 0, [.dim 0, .dim 1]⟩
      ⟨2, 0, [.dim 0, .const 0]⟩ := ⟨rfl, rfl, rfl, rfl, .maxnumf (.inl ⟨rfl, rfl⟩)⟩
  refine ⟨rfl, rfl, ⟨_, _, emitInsts_reduce reducePlacement rfl rfl, ?_⟩,
    _, _, emitInsts_reduce reducePlacement rfl rfl, ?_⟩
  · intro h
    have hpicked := (@rowsSummed_iff Int Fp32.integers _ _ .SUM _ _ _ _ 2 2 _ _ _ _ _ hsum
      (by decide) integers_exact rfl rfl _ reducePlacement.src (by decide)
      (@run_reduce _ _ _ _ _ _ _ _ _ Int Fp32.integers reducePlacement rfl rfl
        reduceGeometry (by decide))).mp h
    exact absurd hpicked (by decide)
  · let _ := exactArith
    intro h
    have hcond := ((rowsMax_iff hmax rfl rfl reducePlacement.src (by decide) (by decide)
      (run_reduce reducePlacement rfl rfl reduceGeometry (by decide))).mp h).2 rfl
    exact absurd hcond (by decide)

end EclipseNpu.Compiler

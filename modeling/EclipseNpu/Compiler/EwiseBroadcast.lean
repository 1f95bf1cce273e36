import EclipseNpu.Compiler.Emit
import EclipseNpu.Compiler.Lowering
import EclipseNpu.Runtime.Kernels
import EclipseNpu.Runtime.Stream

/-!
# Compiler — EwiseBroadcast

A broadcast `linalg.generic` and the ELEMENTWISE descriptor it becomes
compute the same array. Four layers meet here: the indexing maps the
pattern accepts, the operand it picks as lhs, the `rhsBlk`/`rhsStride` the
emitter derives from the shapes, and the flat rhs index of the executor.
Their common value is `smallPosition`.
-/

namespace EclipseNpu.Compiler

open EclipseNpu.Runtime

/-! ## The meaning of a generic -/

def AffineExpr.eval (dims symbols : List Int) : AffineExpr → Int
  | .dim i => dims.getD i 0
  | .symbol i => symbols.getD i 0
  | .const c => c
  | .add l r => l.eval dims symbols + r.eval dims symbols
  | .mul l r => l.eval dims symbols * r.eval dims symbols
  | .mod l r => l.eval dims symbols % r.eval dims symbols
  | .floorDiv l r => (l.eval dims symbols).fdiv (r.eval dims symbols)
  | .ceilDiv l r => -(-l.eval dims symbols).fdiv (r.eval dims symbols)

/-- The row-major position of an index in a packed array. -/
def flatPosition (shape : List Nat) (index : List Int) : Nat :=
  ((shape.zip index).foldl (fun acc p => acc * (p.1 : Int) + p.2) 0).toNat

/-- The position a map reads at iteration `(r, c)`. -/
def AffineMap.position (m : AffineMap) (shape : List Nat) (r c : Nat) : Nat :=
  flatPosition shape (m.results.map (AffineExpr.eval [(r : Int), (c : Int)] []))

section Meaning

variable {F : Type} [Fp32 F]

/-- A scalar of the body, from its block arguments; `unknown` gives the
scalars the model does not look into. -/
def ScalarExpr.eval (args unknown : Nat → F) : ScalarExpr → F
  | .arg i => args i
  | .constant bits => Fp32.fp16ToFp32 bits
  | .addf l r => Fp32.add (l.eval args unknown) (r.eval args unknown)
  | .subf l r => Fp32.sub (l.eval args unknown) (r.eval args unknown)
  | .mulf l r => Fp32.mul (l.eval args unknown) (r.eval args unknown)
  | .divf l r => Fp32.div (l.eval args unknown) (r.eval args unknown)
  | .maximumf l r => reduceMax (l.eval args unknown) (r.eval args unknown)
  | .maxnumf l r =>
      let a := l.eval args unknown
      let b := r.eval args unknown
      if Fp32.isnan a then b else if Fp32.isnan b then a else reduceMax a b
  | .other id => unknown id

/-- Block argument `k` at iteration `(r, c)`: the element its indexing map
picks. `mem` gives the contents of every memref. -/
def GenericOp.element (op : GenericOp) (mem : Value → Nat → UInt16)
    (r c k : Nat) : F :=
  match (op.inputs ++ op.outputs)[k]?, op.maps[k]? with
  | some v, some m => Fp32.fp16ToFp32 (mem v (m.position v.type.shape r c))
  | _, _ => Fp32.zero

/-- A scalar of the body at iteration `(r, c)`. -/
def GenericOp.scalarAt (op : GenericOp) (mem : Value → Nat → UInt16)
    (unknown : Nat → F) (e : ScalarExpr) (r c : Nat) : F :=
  e.eval (op.element mem r c) unknown

end Meaning

/-! ## What the pattern accepts -/

/-- The facts `EwiseBroadcastLowering` has checked: operand `bigIdx` has the
shape of the output, and `smallIdx` is the other input. -/
structure BroadcastMatch (op : GenericOp) (kind : BinOp) (big small : Value)
    (rows cols : Nat) where
  bigIdx : Nat
  smallIdx : Nat
  bigMap : AffineMap
  smallMap : AffineMap
  smallRows : Nat
  smallCols : Nat
  compute : ScalarExpr
  a : Nat
  b : Nat
  yields : op.yields = [compute]
  binOp : binOpOf compute = some (kind, .arg a, .arg b)
  order : (a = bigIdx ∧ b = smallIdx)
    ∨ (a = smallIdx ∧ b = bigIdx ∧ (kind = .Add ∨ kind = .Mul))
  bigOperand : (op.inputs ++ op.outputs)[bigIdx]? = some big
  smallOperand : (op.inputs ++ op.outputs)[smallIdx]? = some small
  bigMapAt : op.maps[bigIdx]? = some bigMap
  smallMapAt : op.maps[smallIdx]? = some smallMap
  bigShape : big.type.shape = [rows, cols]
  smallShape : small.type.shape = [smallRows, smallCols]
  identity : isIdentityMap bigMap = true
  rhsMap : rhsMapMatches smallMap smallRows smallCols cols = true
  shapeOk : smallShapeOk smallRows smallCols rows cols = true

theorem bigAndSmall_eq_some {in0 in1 out : MemRefType} {i j : Nat}
    (h : bigAndSmall in0 in1 out = some (i, j)) :
    (i = 0 ∧ j = 1 ∧ in0.shape = out.shape)
      ∨ (i = 1 ∧ j = 0 ∧ in1.shape = out.shape) := by
  unfold bigAndSmall at h
  split_ifs at h with h0 h1
  · cases h; exact .inl ⟨rfl, rfl, h0⟩
  · cases h; exact .inr ⟨rfl, rfl, h1⟩

theorem argIndex_eq_some {e : ScalarExpr} {i : Nat} (h : argIndex e = some i) :
    e = .arg i := by
  cases e <;> simp_all [argIndex]

theorem operandOrderOk_iff {kind : BinOp} {a b i j : Nat} :
    operandOrderOk kind a b i j = true →
      (a = i ∧ b = j) ∨ (a = j ∧ b = i ∧ (kind = .Add ∨ kind = .Mul)) := by
  intro h
  simp only [operandOrderOk, Bool.and_eq_true, decide_eq_true_eq,
    Bool.not_eq_true', Bool.and_eq_false_iff, decide_eq_false_iff_not] at h
  obtain ⟨hfwd | ⟨ha, hb⟩, hk⟩ := h
  · exact .inl hfwd
  · refine .inr ⟨ha, hb, ?_⟩
    rcases hk with hk | hk
    · exact absurd ⟨ha, hb⟩ hk
    · by_contra hn
      exact hk (not_or.mp hn)

/-- Everything an accepted generic satisfies. -/
theorem matchEwiseBroadcast_some {op : GenericOp} {kind : BinOp}
    {big small out : Value} {rows cols : Nat}
    (h : matchEwiseBroadcast op = some (.ewise kind big small out))
    (hshape : out.type.shape = [rows, cols]) :
    Nonempty (BroadcastMatch op kind big small rows cols) := by
  unfold matchEwiseBroadcast at h
  split at h
  case h_2 => cases h
  case h_1 in0 in1 out' compute hin hout hyields =>
    simp only [Option.bind_eq_bind, Option.bind_eq_some_iff,
      Option.guard_eq_some'] at h
    obtain ⟨-, -, ⟨k, ea, eb⟩, hbin, a, ha, b, hb, -, -, ⟨i, j⟩, hij, -, horder,
      h⟩ := h
    obtain rfl := argIndex_eq_some ha
    obtain rfl := argIndex_eq_some hb
    dsimp only at hbin hij horder h
    split at h
    case h_2 => cases h
    case h_1 smallRows smallCols outRows outCols m0 m1 m2 hsmall hout' hmaps =>
      simp only [Option.bind_eq_some_iff, Option.guard_eq_some', Bool.and_eq_true,
        Option.pure_def, Option.some.injEq, Lowering.ewise.injEq] at h
      obtain ⟨-, hok, -, ⟨⟨hid, -⟩, hrhs⟩, rfl, hbig, hsm, rfl⟩ := h
      rw [hshape] at hout'
      cases hout'
      rcases bigAndSmall_eq_some hij with ⟨rfl, rfl, hsh⟩ | ⟨rfl, rfl, hsh⟩
      · obtain rfl : in0 = big := hbig
        obtain rfl : in1 = small := hsm
        exact ⟨{
          bigIdx := 0, smallIdx := 1, bigMap := m0, smallMap := m1
          smallRows, smallCols, compute, a, b
          yields := hyields, binOp := hbin, order := operandOrderOk_iff horder
          bigOperand := by rw [hin]; rfl
          smallOperand := by rw [hin]; rfl
          bigMapAt := by rw [hmaps]; rfl
          smallMapAt := by rw [hmaps]; rfl
          bigShape := hsh.trans hshape, smallShape := hsmall
          identity := hid, rhsMap := hrhs, shapeOk := hok }⟩
      · obtain rfl : in1 = big := hbig
        obtain rfl : in0 = small := hsm
        exact ⟨{
          bigIdx := 1, smallIdx := 0, bigMap := m1, smallMap := m0
          smallRows, smallCols, compute, a, b
          yields := hyields, binOp := hbin, order := operandOrderOk_iff horder
          bigOperand := by rw [hin]; rfl
          smallOperand := by rw [hin]; rfl
          bigMapAt := by rw [hmaps]; rfl
          smallMapAt := by rw [hmaps]; rfl
          bigShape := hsh.trans hshape, smallShape := hsmall
          identity := hid, rhsMap := hrhs, shapeOk := hok }⟩

/-! ## Positions -/

/-- Where the small operand is read at `(r, c)`: its only row or row `r`,
at column `c` modulo its width. -/
def smallPosition (smallRows smallCols r c : Nat) : Nat :=
  (if smallRows = 1 then 0 else r) * smallCols + c % smallCols

theorem flatPosition_pair (m n r c : Nat) :
    flatPosition [m, n] [(r : Int), (c : Int)] = r * n + c := by
  show ((0 * (m : Int) + r) * n + c).toNat = r * n + c
  rw [Int.zero_mul, Int.zero_add, ← Int.natCast_mul, ← Int.natCast_add,
    Int.toNat_natCast]

theorem position_identity {m : AffineMap} (h : isIdentityMap m = true)
    (rows cols r c : Nat) : m.position [rows, cols] r c = r * cols + c := by
  obtain ⟨-, -, hres⟩ := of_decide_eq_true h
  rw [AffineMap.position, hres]
  exact flatPosition_pair rows cols r c

theorem matchModD1_eq_some {e : AffineExpr} {k : Int}
    (h : matchModD1 e = some k) : e = .mod (.dim 1) (.const k) := by
  unfold matchModD1 at h
  split at h
  case h_1 l k' =>
    split_ifs at h with hl
    cases h
    rw [hl]
  case h_2 => cases h

/-- The matched row expression: constant 0, or `d0`. -/
theorem rhsRow_eval {e : AffineExpr} {smallRows : Nat} (r c : Nat)
    (h : (if smallRows = 1 then isConstZero e else decide (e = .dim 0)) = true) :
    e.eval [(r : Int), (c : Int)] [] = ((if smallRows = 1 then 0 else r : Nat) : Int) := by
  split_ifs at h ⊢ with h1
  · obtain rfl : e = .const 0 := of_decide_eq_true h
    rfl
  · obtain rfl : e = .dim 0 := of_decide_eq_true h
    rfl

/-- The matched column expression: constant 0, `d1`, or `d1 mod smallCols`.
All three are the column modulo the width. -/
theorem rhsCol_eval {e : AffineExpr} {smallCols cols r c : Nat} (hc : c < cols)
    (h : (if smallCols = 1 then isConstZero e
      else if smallCols = cols then
        decide (e = .dim 1) || decide (matchModD1 e = some (smallCols : Int))
      else decide (matchModD1 e = some (smallCols : Int))) = true) :
    e.eval [(r : Int), (c : Int)] [] = ((c % smallCols : Nat) : Int) := by
  have hmod : matchModD1 e = some (smallCols : Int) →
      e.eval [(r : Int), (c : Int)] [] = ((c % smallCols : Nat) : Int) := by
    intro he
    rw [matchModD1_eq_some he]
    rfl
  split_ifs at h with h1 h2
  · obtain rfl : e = .const 0 := of_decide_eq_true h
    rw [h1, Nat.mod_one]
    rfl
  · rw [Bool.or_eq_true] at h
    rcases h with h | h
    · obtain rfl : e = .dim 1 := of_decide_eq_true h
      rw [h2, Nat.mod_eq_of_lt hc]
      rfl
    · exact hmod (of_decide_eq_true h)
  · exact hmod (of_decide_eq_true h)

theorem position_rhsMap {m : AffineMap} {smallRows smallCols cols r c : Nat}
    (hc : c < cols) (h : rhsMapMatches m smallRows smallCols cols = true) :
    m.position [smallRows, smallCols] r c = smallPosition smallRows smallCols r c := by
  unfold rhsMapMatches at h
  split at h
  case h_2 => cases h
  case h_1 r0 r1 hdims hsyms hres =>
    rw [Bool.and_eq_true] at h
    rw [AffineMap.position, hres]
    show flatPosition _ [r0.eval _ _, r1.eval _ _] = _
    rw [rhsRow_eval r c h.1, rhsCol_eval hc h.2, flatPosition_pair]
    rfl

/-- The small operand has an element at that position. -/
theorem smallPosition_lt {smallRows smallCols rows cols r c : Nat}
    (h : smallShapeOk smallRows smallCols rows cols = true) (hr : r < rows) :
    smallPosition smallRows smallCols r c < smallRows * smallCols := by
  simp only [smallShapeOk, Bool.and_eq_true, decide_eq_true_eq] at h
  obtain ⟨⟨hpos, -⟩, hrows⟩ := h
  refine flat_lt ?_ (Nat.mod_lt c hpos)
  split_ifs with h1
  · omega
  · omega

/-- The rhs index of the emitted descriptor, at the flat index of `(r, c)`. -/
theorem rhsIndex_ewiseDesc (dst lhs rhs : UInt32)
    {rows cols smallRows smallCols r c : Nat}
    (h : smallShapeOk smallRows smallCols rows cols = true) (hr : r < rows)
    (hc : c < cols) (hbig : rows * cols < 4294967296)
    (hsmall : smallRows * smallCols < 4294967296) :
    ((ewiseDesc dst lhs rhs rows cols smallRows smallCols).rhsIndex
        (UInt32.ofNat (r * cols + c))).toNat
      = smallPosition smallRows smallCols r c := by
  have hflat := flat_lt hr hc
  have hpos := smallPosition_lt (c := c) h hr
  have hcols : cols ≤ rows * cols := Nat.le_mul_of_pos_left cols (by omega)
  simp only [smallShapeOk, Bool.and_eq_true, decide_eq_true_eq] at h
  obtain ⟨⟨hsc, hdvd⟩, hrows⟩ := h
  have hle : smallCols ≤ cols := Nat.le_of_dvd (by omega) (Nat.dvd_of_mod_eq_zero hdvd)
  have hmod : (r * cols + c) % smallCols = c % smallCols := by
    rw [Nat.add_mod, Nat.mul_mod, hdvd, Nat.mul_zero, Nat.zero_mod, Nat.zero_add,
      Nat.mod_mod]
  have hrow : (UInt32.ofNat (r * cols + c) / UInt32.ofNat cols).toNat = r := by
    rw [UInt32.toNat_div, toNat_ofNat_small (by omega), toNat_ofNat_small (by omega), flat_div hc]
  have hcol : (UInt32.ofNat (r * cols + c) % UInt32.ofNat smallCols).toNat
      = c % smallCols := by
    rw [UInt32.toNat_mod, toNat_ofNat_small (by omega), toNat_ofNat_small (by omega), hmod]
  have hstride : (if smallRows = 1 then 0 else UInt32.ofNat smallCols).toNat
      = if smallRows = 1 then 0 else smallCols := by
    split_ifs
    · rfl
    · exact toNat_ofNat_small (by omega)
  have hprod : r * (if smallRows = 1 then 0 else smallCols) + c % smallCols
      = smallPosition smallRows smallCols r c := by
    rw [smallPosition]
    split_ifs
    · rw [Nat.mul_zero, Nat.zero_mul]
    · rfl
  show (UInt32.ofNat (r * cols + c) / UInt32.ofNat cols
    * (if smallRows = 1 then 0 else UInt32.ofNat smallCols)
    + UInt32.ofNat (r * cols + c) % UInt32.ofNat smallCols).toNat = _
  rw [toNat_mulAdd (by rw [hrow, hcol, hstride, hprod]; omega), hrow, hcol, hstride,
    hprod]

/-! ## The descriptor computes the generic -/

section Sound

variable {F : Type} [Fp32 F]

theorem ofNat_ne_zero {n : Nat} (h : n < 4294967296) (h0 : 0 < n) :
    UInt32.ofNat n ≠ 0 := by
  intro he
  have := congrArg UInt32.toNat he
  rw [toNat_ofNat_small h] at this
  exact absurd this (by show ¬ n = 0; omega)

/-- ELEMENTWISE on the emitted descriptor reads the small operand at
`smallPosition`. -/
theorem elementwise_ewiseDesc {dst lhs rhs : UInt32}
    {rows cols smallRows smallCols : Nat} (op : EwiseOp) {s : CModel}
    (hok : smallShapeOk smallRows smallCols rows cols = true)
    (hrows : 0 < rows) (hcols : 0 < cols)
    (hdst : InSram dst.toNat (rows * cols)) (hlhs : InSram lhs.toNat (rows * cols))
    (hrhs : InSram rhs.toNat (smallRows * smallCols))
    (hdl : ArraysApart lhs.toNat (rows * cols) dst.toNat (rows * cols))
    (hdr : ArraysApart rhs.toNat (smallRows * smallCols) dst.toNat (rows * cols))
    (hdiv : op = .div → ∀ r < rows, ∀ c < cols,
      Fp32.eq (Fp32.fp16ToFp32 (elemAt s rhs.toNat
        (smallPosition smallRows smallCols r c)) : F) Fp32.zero = false) :
    ∃ s', elementwise F (ewiseDesc dst lhs rhs rows cols smallRows smallCols) op s
        = .ok s'
      ∧ ∀ r < rows, ∀ c < cols, elemAt s' dst.toNat (r * cols + c)
        = Fp32.fp32ToFp16 (op.eval F
          (Fp32.fp16ToFp32 (elemAt s lhs.toNat (r * cols + c)))
          (Fp32.fp16ToFp32 (elemAt s rhs.toNat
            (smallPosition smallRows smallCols r c)))) := by
  have hn : rows * cols < 4294967296 := by
    have := hdst.2
    rw [sramEnd_eq] at this
    omega
  have hsm : smallRows * smallCols < 4294967296 := by
    have := hrhs.2
    rw [sramEnd_eq] at this
    omega
  have hrn : rows ≤ rows * cols := Nat.le_mul_of_pos_right rows hcols
  have hcn : cols ≤ rows * cols := Nat.le_mul_of_pos_left cols hrows
  have hshape := hok
  simp only [smallShapeOk, Bool.and_eq_true, decide_eq_true_eq] at hshape
  obtain ⟨⟨hsc, hdvd⟩, -⟩ := hshape
  have hle : smallCols ≤ cols := Nat.le_of_dvd hcols (Nat.dvd_of_mod_eq_zero hdvd)
  have hdvd' : UInt32.ofNat cols % UInt32.ofNat smallCols = 0 := by
    apply UInt32.toNat.inj
    rw [UInt32.toNat_mod, toNat_ofNat_small (by omega), toNat_ofNat_small (by omega),
      hdvd]
    rfl
  have hrc : (UInt32.ofNat rows * UInt32.ofNat cols).toNat = rows * cols := by
    rw [UInt32.toNat_mul, toNat_ofNat_small (by omega), toNat_ofNat_small (by omega),
      Nat.mod_eq_of_lt hn]
  obtain ⟨s', hs', hval, -⟩ := elementwise_packed (F := F) (s := s)
    (d := ewiseDesc dst lhs rhs rows cols smallRows smallCols)
    (n := rows * cols) (m := smallRows * smallCols) op
    (fun i => smallPosition smallRows smallCols (i / cols) (i % cols))
    (ofNat_ne_zero (by omega) hcols) (ofNat_ne_zero (by omega) hsc) hdvd' hrc
    (fun i hi => by
      obtain ⟨hir, hic, hi'⟩ := flat_split hi
      have := rhsIndex_ewiseDesc dst lhs rhs hok hir hic hn hsm
      rw [hi'] at this
      exact ⟨this, smallPosition_lt hok hir⟩)
    hdst hlhs hrhs hdl hdr (fun hop i hi =>
      hdiv hop _ (flat_split hi).1 _ (flat_split hi).2.1)
  refine ⟨s', hs', fun r hr c hc => ?_⟩
  have hv := hval (r * cols + c) (flat_lt hr hc)
  rw [flat_div hc, flat_mod hc] at hv
  exact hv

theorem BroadcastMatch.element_big {op : GenericOp} {kind : BinOp}
    {big small : Value} {rows cols : Nat}
    (m : BroadcastMatch op kind big small rows cols) (mem : Value → Nat → UInt16)
    (r c : Nat) :
    op.element mem r c m.bigIdx
      = (Fp32.fp16ToFp32 (mem big (r * cols + c)) : F) := by
  simp only [GenericOp.element, m.bigOperand, m.bigMapAt, m.bigShape,
    position_identity m.identity]

theorem BroadcastMatch.element_small {op : GenericOp} {kind : BinOp}
    {big small : Value} {rows cols : Nat}
    (m : BroadcastMatch op kind big small rows cols) (mem : Value → Nat → UInt16)
    {r c : Nat} (hc : c < cols) :
    op.element mem r c m.smallIdx
      = (Fp32.fp16ToFp32 (mem small (smallPosition m.smallRows m.smallCols r c))
        : F) := by
  simp only [GenericOp.element, m.smallOperand, m.smallMapAt, m.smallShape,
    position_rhsMap hc m.rhsMap]

/-- The body is the operation on the big and the small element, in that
order: a body with the operands swapped is commutative. -/
theorem BroadcastMatch.scalarAt_body
    (hadd : ∀ a b : F, Fp32.add a b = Fp32.add b a)
    (hmul : ∀ a b : F, Fp32.mul a b = Fp32.mul b a)
    {op : GenericOp} {kind : BinOp} {big small : Value} {rows cols : Nat}
    (m : BroadcastMatch op kind big small rows cols) (mem : Value → Nat → UInt16)
    (unknown : Nat → F) {body : ScalarExpr} (hbody : op.yields = [body])
    {r c : Nat} (hc : c < cols) :
    op.scalarAt mem unknown body r c = kind.mnemonic.eval F
      (Fp32.fp16ToFp32 (mem big (r * cols + c)))
      (Fp32.fp16ToFp32 (mem small (smallPosition m.smallRows m.smallCols r c))) := by
  obtain rfl : m.compute = body := by
    have := m.yields.symm.trans hbody
    simpa using this
  rw [← m.element_big mem r c, ← m.element_small mem hc]
  have hbin := m.binOp
  have horder := m.order
  unfold binOpOf at hbin
  split at hbin <;> cases hbin
  all_goals
    rename_i hcompute
    rw [hcompute]
    rcases horder with ⟨ha, hb⟩ | ⟨ha, hb, hk⟩
    · rw [ha, hb]; rfl
  · rw [ha, hb]; exact hadd _ _
  · rcases hk with hk | hk <;> cases hk
  · rw [ha, hb]; exact hmul _ _
  · rcases hk with hk | hk <;> cases hk

/-- The divisor of a division is the small operand. -/
theorem BroadcastMatch.divisor {op : GenericOp} {big small : Value}
    {rows cols : Nat} (m : BroadcastMatch op .Div big small rows cols)
    (mem : Value → Nat → UInt16) (unknown : Nat → F) {body : ScalarExpr}
    (hbody : op.yields = [body]) :
    ∃ a b, body = .divf a b ∧ ∀ r, ∀ c < cols, op.scalarAt mem unknown b r c
      = Fp32.fp16ToFp32 (mem small (smallPosition m.smallRows m.smallCols r c)) := by
  obtain rfl : m.compute = body := by
    have := m.yields.symm.trans hbody
    simpa using this
  have hbin := m.binOp
  unfold binOpOf at hbin
  split at hbin <;> cases hbin
  rename_i hcompute
  refine ⟨_, _, hcompute, fun r c hc => ?_⟩
  rcases m.order with ⟨-, hb⟩ | ⟨-, -, hk | hk⟩
  · rw [hb]
    exact m.element_small mem hc
  · cases hk
  · cases hk

/-- The tiles of an elementwise sequence: their addresses, and that the two
inputs stand there packed, apart from the output. -/
structure EwiseTiles (layout : Layout) (p : Nat) (big small out : Value)
    (mem : Value → Nat → UInt16) (s : CModel) (dst lhs rhs : UInt32) : Prop where
  dstAddr : layout.sramAddr? (tileOut p (sramTypeOf out)) = some dst
  lhsAddr : layout.sramAddr? (tileIn p 0 (sramTypeOf big)) = some lhs
  rhsAddr : layout.sramAddr? (tileIn p 1 (sramTypeOf small)) = some rhs
  dstIn : InSram dst.toNat out.type.numElements
  lhsIn : InSram lhs.toNat big.type.numElements
  rhsIn : InSram rhs.toNat small.type.numElements
  lhsApart : ArraysApart lhs.toNat big.type.numElements
    dst.toNat out.type.numElements
  rhsApart : ArraysApart rhs.toNat small.type.numElements
    dst.toNat out.type.numElements
  big : ∀ i < big.type.numElements, elemAt s lhs.toNat i = mem big i
  small : ∀ i < small.type.numElements, elemAt s rhs.toNat i = mem small i

theorem numElements_pair {v : Value} {rows cols : Nat}
    (h : v.type.shape = [rows, cols]) : v.type.numElements = rows * cols := by
  rw [MemRefType.numElements, h]
  show rows * (cols * 1) = rows * cols
  rw [Nat.mul_one]

/-- The line `emitEwise` writes for the tiles of an accepted generic. -/
theorem emitEwise_tiles {layout : Layout} {p : Nat} {kind : BinOp}
    {big small out : Value} {mem : Value → Nat → UInt16} {s : CModel}
    {dst lhs rhs descAddr next : UInt32} {x : EasmInsn}
    {rows cols smallRows smallCols : Nat}
    (t : EwiseTiles layout p big small out mem s dst lhs rhs)
    (hout : out.type.shape = [rows, cols])
    (hsmall : small.type.shape = [smallRows, smallCols])
    (h : emitEwise layout descAddr kind (tileIn p 0 (sramTypeOf big))
      (tileIn p 1 (sramTypeOf small)) (tileOut p (sramTypeOf out))
      = some ([x], next)) :
    x = .elementwise kind.mnemonic descAddr
      (ewiseDesc dst lhs rhs rows cols smallRows smallCols) := by
  have hd0 : (tileOut p (sramTypeOf out)).type.dim? 0 = some rows := by
    show out.type.shape[0]? = _; rw [hout]; rfl
  have hd1 : (tileOut p (sramTypeOf out)).type.dim? 1 = some cols := by
    show out.type.shape[1]? = _; rw [hout]; rfl
  have hr0 : (tileIn p 1 (sramTypeOf small)).type.dim? 0 = some smallRows := by
    show small.type.shape[0]? = _; rw [hsmall]; rfl
  have hr1 : (tileIn p 1 (sramTypeOf small)).type.dim? 1 = some smallCols := by
    show small.type.shape[1]? = _; rw [hsmall]; rfl
  simp only [emitEwise, t.dstAddr, t.lhsAddr, t.rhsAddr, hd0, hd1, hr0, hr1,
    Option.bind_eq_bind, Option.bind_some, Option.pure_def, emitLine,
    Option.some.injEq, Prod.mk.injEq, List.cons.injEq, and_true] at h
  exact h.1.symm

/-- **Broadcast elementwise lowering is sound**: the descriptor emitted for
an accepted generic leaves in `dst[r, c]` the body of the generic on the
elements its maps pick, rounded to fp16. -/
theorem emitEwise_broadcast
    (hadd : ∀ a b : F, Fp32.add a b = Fp32.add b a)
    (hmul : ∀ a b : F, Fp32.mul a b = Fp32.mul b a)
    {op : GenericOp} {kind : BinOp} {big small out : Value}
    (hmatch : matchEwiseBroadcast op = some (.ewise kind big small out))
    {rows cols : Nat} (hshape : out.type.shape = [rows, cols])
    {body : ScalarExpr} (hbody : op.yields = [body])
    {layout : Layout} {p : Nat} {mem : Value → Nat → UInt16} {s : CModel}
    {dst lhs rhs descAddr next : UInt32} {x : EasmInsn}
    (htiles : EwiseTiles layout p big small out mem s dst lhs rhs)
    (hemit : emitEwise layout descAddr kind (tileIn p 0 (sramTypeOf big))
      (tileIn p 1 (sramTypeOf small)) (tileOut p (sramTypeOf out))
      = some ([x], next))
    (hslot : SlotInDdr x) (hown : OwnDesc x s) {unknown : Nat → F}
    (hdiv : ∀ a b, body = .divf a b → ∀ r < rows, ∀ c < cols,
      Fp32.eq (op.scalarAt mem unknown b r c) Fp32.zero = false) :
    ∀ r < rows, ∀ c < cols, ∃ s', exec F x.toInstruction s = .ok s'
      ∧ elemAt s' dst.toNat (r * cols + c)
        = Fp32.fp32ToFp16 (op.scalarAt mem unknown body r c) := by
  intro r hr c hc
  obtain ⟨m⟩ := matchEwiseBroadcast_some hmatch hshape
  obtain rfl := emitEwise_tiles htiles hshape m.smallShape hemit
  have hbigN := numElements_pair m.bigShape
  have hsmallN := numElements_pair m.smallShape
  have houtN := numElements_pair hshape
  have hdl := htiles.lhsApart
  rw [hbigN, houtN] at hdl
  obtain ⟨s', hs', hval⟩ := elementwise_ewiseDesc (F := F) kind.mnemonic
    m.shapeOk (by omega) (by omega) (houtN ▸ htiles.dstIn) (hbigN ▸ htiles.lhsIn)
    (hsmallN ▸ htiles.rhsIn) hdl
    (houtN ▸ hsmallN ▸ htiles.rhsApart) (fun hop r hr c hc => by
      obtain rfl : kind = .Div := by cases kind <;> first | rfl | cases hop
      obtain ⟨a, b, hab, hdivisor⟩ := m.divisor mem unknown hbody
      rw [htiles.small _ (hsmallN ▸ smallPosition_lt m.shapeOk hr),
        ← hdivisor r c hc]
      exact hdiv a b hab r hr c hc)
  refine ⟨s', ?_, ?_⟩
  · rw [exec_toInstruction hslot hown (StoreAvoids.of_notStore nofun)]
    exact hs'
  · rw [m.scalarAt_body hadd hmul mem unknown hbody hc,
      ← htiles.big _ (hbigN ▸ flat_lt hr hc),
      ← htiles.small _ (hsmallN ▸ smallPosition_lt m.shapeOk hr)]
    exact hval r hr c hc

end Sound

/-! ### A column added to a matrix, with the operands swapped -/

/-- `out[r, c] = col[r, 0] + x[r, c]` on a 2x2 matrix. -/
def addColumn : GenericOp :=
  { inputs := [.blockArg 0 0 (f16Type 2 1), .blockArg 0 1 (f16Type 2 2)]
    outputs := [.blockArg 0 2 (f16Type 2 2)]
    maps := [⟨2, 0, [.dim 0, .const 0]⟩, ⟨2, 0, [.dim 0, .dim 1]⟩,
      ⟨2, 0, [.dim 0, .dim 1]⟩]
    iterators := [.parallel, .parallel]
    yields := [.addf (.arg 0) (.arg 1)] }

/-- The tiles of `addColumn`: the matrix, the column, the result. -/
def addColumnLayout : Layout :=
  [(tileIn 0 0 (f16Type 2 2), .sram 0x10000000),
    (tileIn 0 1 (f16Type 2 1), .sram 0x10000020),
    (tileOut 0 (f16Type 2 2), .sram 0x10000040)]

def addColumnLine : EasmInsn :=
  .elementwise .add DESC_STARTADDR
    (ewiseDesc 0x10000040 0x10000000 0x10000020 2 2 2 1)

/-- The matrix holds 1 to 4 and the column 10 and 20. -/
def addColumnInput (v : Value) (i : Nat) : UInt16 :=
  if v = .blockArg 0 0 (f16Type 2 1) then intToFp16 (10 * (i + 1)) else intToFp16 (i + 1)

/-- The inputs stand in their tiles, and the descriptor is loaded. -/
def addColumnState : CModel :=
  CModel.storeDdr
    (CModel.storeSram
      (CModel.storeSram (fun _ => 0) 0x10000000 (integerBytes [1, 2, 3, 4]))
      0x10000020 (integerBytes [10, 20]))
    DESC_STARTADDR.toNat addColumnLine.descBytes

theorem emitEwise_broadcast_addColumn : ∃ s',
    @exec Int Fp32.integers addColumnLine.toInstruction addColumnState = .ok s'
      ∧ [0, 1, 2, 3].map (elemAt s' 0x10000040) = [11, 12, 23, 24].map intToFp16 := by
  have htiles : EwiseTiles addColumnLayout 0 (.blockArg 0 1 (f16Type 2 2))
      (.blockArg 0 0 (f16Type 2 1)) (.blockArg 0 2 (f16Type 2 2))
      addColumnInput addColumnState 0x10000040 0x10000000 0x10000020 :=
    { dstAddr := rfl, lhsAddr := rfl, rhsAddr := rfl
      dstIn := by decide, lhsIn := by decide, rhsIn := by decide
      lhsApart := by decide, rhsApart := by decide
      big := by decide +kernel, small := by decide +kernel }
  have hsum : ∀ r < 2, ∀ c < 2, intToFp16 (@GenericOp.scalarAt Int Fp32.integers
      addColumn addColumnInput (fun _ => 0) (.addf (.arg 0) (.arg 1)) r c)
      = intToFp16 (10 * (r + 1) + (r * 2 + c + 1)) := by
    decide +kernel
  have hcell : ∀ r < 2, ∀ c < 2, ∃ s',
      @exec Int Fp32.integers addColumnLine.toInstruction addColumnState = .ok s'
        ∧ elemAt s' 0x10000040 (r * 2 + c) = intToFp16 (10 * (r + 1) + (r * 2 + c + 1)) := by
    intro r hr c hc
    obtain ⟨s', hs', hv⟩ := @emitEwise_broadcast Int Fp32.integers Int.add_comm Int.mul_comm
      addColumn .Add _ _ _ rfl 2 2 rfl _ rfl addColumnLayout 0 _ addColumnState _ _ _
      DESC_STARTADDR _ addColumnLine htiles rfl (fun _ => by decide)
      (fun k hk => by revert k; decide +kernel) (fun _ => 0) nofun r hr c hc
    exact ⟨s', hs', hv.trans (hsum r hr c hc)⟩
  obtain ⟨s', hs', -⟩ := hcell 0 (by decide) 0 (by decide)
  have hall : ∀ r < 2, ∀ c < 2,
      elemAt s' 0x10000040 (r * 2 + c) = intToFp16 (10 * (r + 1) + (r * 2 + c + 1)) := by
    intro r hr c hc
    obtain ⟨t, ht, hv⟩ := hcell r hr c hc
    rw [hs'] at ht
    cases ht
    exact hv
  refine ⟨s', hs', ?_⟩
  show [elemAt s' 0x10000040 (0 * 2 + 0), elemAt s' 0x10000040 (0 * 2 + 1),
    elemAt s' 0x10000040 (1 * 2 + 0), elemAt s' 0x10000040 (1 * 2 + 1)] = _
  rw [hall 0 (by decide) 0 (by decide), hall 0 (by decide) 1 (by decide),
    hall 1 (by decide) 0 (by decide), hall 1 (by decide) 1 (by decide)]
  rfl

end EclipseNpu.Compiler

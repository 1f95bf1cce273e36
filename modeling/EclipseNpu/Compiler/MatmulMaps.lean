import EclipseNpu.Compiler.LoopNest
import EclipseNpu.Compiler.MatmulEndToEnd
import Mathlib.Algebra.GroupWithZero.NeZero
import Mathlib.Data.List.Permutation

/-!
# Compiler — MatmulMaps

`linalg.matmul` may carry `indexing_maps` that read A or B transposed.
`MatmulLowering` never asks for them: the stream it emits is that of the
default maps. The shape checks settle the matter only where they fail, and on
square operands they do not.

MLIR's verifier takes of a rank-2 operand any order of the loops of its default
map; that is `MapsLegal`.
-/

namespace EclipseNpu.Compiler

open EclipseNpu.Lib EclipseNpu.Runtime

/-! ## The operation with its maps -/

/-- `linalg.matmul` and its `indexing_maps`. -/
structure IndexedMatmul where
  lhs : Value
  rhs : Value
  out : Value
  maps : List AffineMap
  deriving DecidableEq, Repr

/-- What the pattern reads of it. -/
def IndexedMatmul.linalg (op : IndexedMatmul) : LinalgOp := .matmul op.lhs op.rhs op.out

/-- The loops of the operation and its body: `out + lhs * rhs`. -/
def IndexedMatmul.generic (op : IndexedMatmul) : GenericOp :=
  { inputs := [op.lhs, op.rhs], outputs := [op.out], maps := op.maps
    iterators := [.parallel, .parallel, .reduction]
    yields := [.addf (.arg 2) (.mulf (.arg 0) (.arg 1))] }

/-- `i`, or `j` if the operand is transposed. -/
def either (trans : Bool) (i j : Nat) : Nat := if trans then j else i

@[simp] theorem either_false (i j : Nat) : either false i j = i := rfl
@[simp] theorem either_true (i j : Nat) : either true i j = j := rfl

/-- The map that picks the loops `i` and `j`. -/
def loopsMap (i j : Nat) (trans : Bool) : AffineMap :=
  ⟨3, 0, [.dim (either trans i j), .dim (either trans j i)]⟩

/-- The maps of A, B and C, each transposed or not. -/
def matmulMaps (transA transB transC : Bool) : List AffineMap :=
  [loopsMap 0 2 transA, loopsMap 2 1 transB, loopsMap 0 1 transC]

/-- What MLIR's verifier leaves of the maps of rank-2 operands: each picks the
two loops of its default map. -/
def IndexedMatmul.MapsLegal (op : IndexedMatmul) : Prop :=
  List.Forall₂ (fun m d : AffineMap => m.numDims = d.numDims ∧ m.numSymbols = d.numSymbols
    ∧ m.results.Perm d.results) op.maps (matmulMaps false false false)

theorem loopsMap_of_perm {i j : Nat} {m : AffineMap}
    (h : m.numDims = (loopsMap i j false).numDims
      ∧ m.numSymbols = (loopsMap i j false).numSymbols
      ∧ m.results.Perm (loopsMap i j false).results) :
    ∃ trans, m = loopsMap i j trans := by
  obtain ⟨dims, symbols, results⟩ := m
  obtain ⟨rfl, rfl, hperm⟩ := h
  rcases List.perm_pair.mp hperm with rfl | rfl
  · exact ⟨false, rfl⟩
  · exact ⟨true, rfl⟩

theorem IndexedMatmul.MapsLegal.maps_eq {op : IndexedMatmul} (h : op.MapsLegal) :
    ∃ transA transB transC, op.maps = matmulMaps transA transB transC := by
  obtain ⟨maps⟩ := op
  cases h with
  | cons hA h =>
      cases h with
      | cons hB h =>
          cases h with
          | cons hC h =>
              cases h
              obtain ⟨transA, rfl⟩ := loopsMap_of_perm hA
              obtain ⟨transB, rfl⟩ := loopsMap_of_perm hB
              obtain ⟨transC, rfl⟩ := loopsMap_of_perm hC
              exact ⟨transA, transB, transC, rfl⟩

/-! ## Shapes and positions -/

section Shapes

variable {op : IndexedMatmul} {transA transB transC : Bool} {M N K : Nat}

theorem loopsMap_positionAt (i j : Nat) (trans : Bool) (rows cols m n k : Nat) :
    (loopsMap i j trans).positionAt [rows, cols] [m, n, k]
      = [m, n, k].getD (either trans i j) 0 * cols
        + [m, n, k].getD (either trans j i) 0 := by
  have heval : ∀ d, (AffineExpr.dim d).evalAt [m, n, k] = ([m, n, k].getD d 0 : Nat) := by
    intro d
    match d with
    | 0 | 1 | 2 | _ + 3 => rfl
  show flatPosition _ [(AffineExpr.dim _).evalAt _, (AffineExpr.dim _).evalAt _] = _
  rw [heval, heval, flatPosition_pair]

/-- The sizes of an operand are those of its loops. -/
theorem LoopNest.sizes (hnest : LoopNest op.generic.operands op.generic.maps [M, N, K])
    {i j k rows cols : Nat} {t : Bool} {v : Value} (hv : op.generic.operands[k]? = some v)
    (hm : op.generic.maps[k]? = some (loopsMap i j t))
    (hshape : v.type.shape = [rows, cols]) :
    [M, N, K][either t i j]? = some rows ∧ [M, N, K][either t j i]? = some cols := by
  have h0 := hnest.range k v _ hv hm (either t i j) 0 rfl
  have h1 := hnest.range k v _ hv hm (either t j i) 1 rfl
  rw [hshape] at h0 h1
  exact ⟨h0, h1⟩

/-- The three shapes, by the loops that run over them. -/
structure IndexedMatmul.Shapes (op : IndexedMatmul) (transA transB transC : Bool)
    (M N K : Nat) : Prop where
  maps : op.maps = matmulMaps transA transB transC
  lhs : op.lhs.type.shape = [either transA M K, either transA K M]
  rhs : op.rhs.type.shape = [either transB K N, either transB N K]
  out : op.out.type.shape = [either transC M N, either transC N M]

theorem IndexedMatmul.shapes_of_nest (hmaps : op.maps = matmulMaps transA transB transC)
    (hnest : LoopNest op.generic.operands op.generic.maps [M, N, K])
    {p q r s t u : Nat} (hlhs : op.lhs.type.shape = [p, q])
    (hrhs : op.rhs.type.shape = [r, s]) (hout : op.out.type.shape = [t, u]) :
    op.Shapes transA transB transC M N K := by
  have hA := hnest.sizes (k := 0) (i := 0) (j := 2) (t := transA) rfl
    (by rw [generic, hmaps]; rfl) hlhs
  have hB := hnest.sizes (k := 1) (i := 2) (j := 1) (t := transB) rfl
    (by rw [generic, hmaps]; rfl) hrhs
  have hC := hnest.sizes (k := 2) (i := 0) (j := 1) (t := transC) rfl
    (by rw [generic, hmaps]; rfl) hout
  refine ⟨hmaps, ?_, ?_, ?_⟩
  · cases transA <;> (cases hA.1; cases hA.2; exact hlhs)
  · cases transB <;> (cases hB.1; cases hB.2; exact hrhs)
  · cases transC <;> (cases hC.1; cases hC.2; exact hout)

/-- Operands of these shapes make a loop nest. -/
theorem IndexedMatmul.Shapes.loopNest (h : op.Shapes transA transB transC M N K) :
    LoopNest op.generic.operands op.generic.maps [M, N, K] := by
  have hcases : ∀ (k : Nat) (v : Value) (m : AffineMap), op.generic.operands[k]? = some v →
      op.generic.maps[k]? = some m → ∃ i j trans rows cols, m = loopsMap i j trans
        ∧ i < 3 ∧ j < 3 ∧ v.type.shape = [rows, cols]
        ∧ [M, N, K][either trans i j]? = some rows
        ∧ [M, N, K][either trans j i]? = some cols := by
    intro k v m hv hm
    rw [generic, h.maps] at hm
    match k, hv, hm with
    | 0, hv, hm =>
        cases hv
        cases hm
        exact ⟨0, 2, transA, _, _, rfl, by decide, by decide, h.lhs, by cases transA <;> rfl,
          by cases transA <;> rfl⟩
    | 1, hv, hm =>
        cases hv
        cases hm
        exact ⟨2, 1, transB, _, _, rfl, by decide, by decide, h.rhs, by cases transB <;> rfl,
          by cases transB <;> rfl⟩
    | 2, hv, hm =>
        cases hv
        cases hm
        exact ⟨0, 1, transC, _, _, rfl, by decide, by decide, h.out, by cases transC <;> rfl,
          by cases transC <;> rfl⟩
  refine ⟨?_, ?_, ?_, ?_⟩
  · rw [generic, h.maps]
    rfl
  · intro m hm
    rw [generic, h.maps] at hm
    simp only [matmulMaps, List.mem_cons, List.not_mem_nil, or_false] at hm
    rcases hm with rfl | rfl | rfl <;> exact ⟨rfl, rfl⟩
  · intro k v m hv hm i' j' hij
    obtain ⟨i, j, trans, rows, cols, rfl, -, -, hshape, hrows, hcols⟩ := hcases k v m hv hm
    rw [hshape]
    match j', hij with
    | 0, hij => cases hij; exact hrows
    | 1, hij => cases hij; exact hcols
  · intro p hp k v m hv hm
    obtain ⟨i, j, trans, rows, cols, rfl, hi, hj, hshape, hrows, hcols⟩ := hcases k v m hv hm
    obtain ⟨m, hm, n, hn, k, hk, rfl⟩ := mem_points_triple.mp hp
    have hbound : ∀ d size : Nat, [M, N, K][d]? = some size →
        0 ≤ (AffineExpr.dim d).evalAt [m, n, k]
          ∧ (AffineExpr.dim d).evalAt [m, n, k] < size := by
      intro d size hd
      match d, hd with
      | 0, hd => cases hd; exact ⟨Int.natCast_nonneg m, Int.ofNat_lt.mpr hm⟩
      | 1, hd => cases hd; exact ⟨Int.natCast_nonneg n, Int.ofNat_lt.mpr hn⟩
      | 2, hd => cases hd; exact ⟨Int.natCast_nonneg k, Int.ofNat_lt.mpr hk⟩
    rw [hshape]
    exact .cons (hbound _ _ hrows) (.cons (hbound _ _ hcols) .nil)

theorem IndexedMatmul.Shapes.position_lhs (h : op.Shapes transA transB transC M N K)
    (m n k : Nat) : op.generic.positionAt 0 [m, n, k]
      = either transA m k * either transA K M + either transA k m := by
  have hpos : op.generic.positionAt 0 [m, n, k]
      = (loopsMap 0 2 transA).positionAt op.lhs.type.shape [m, n, k] := by
    rw [GenericOp.positionAt, generic, h.maps]
    rfl
  rw [hpos, h.lhs, loopsMap_positionAt]
  cases transA <;> rfl

theorem IndexedMatmul.Shapes.position_rhs (h : op.Shapes transA transB transC M N K)
    (m n k : Nat) : op.generic.positionAt 1 [m, n, k]
      = either transB k n * either transB N K + either transB n k := by
  have hpos : op.generic.positionAt 1 [m, n, k]
      = (loopsMap 2 1 transB).positionAt op.rhs.type.shape [m, n, k] := by
    rw [GenericOp.positionAt, generic, h.maps]
    rfl
  rw [hpos, h.rhs, loopsMap_positionAt]
  cases transB <;> rfl

theorem IndexedMatmul.Shapes.position_out (h : op.Shapes transA transB transC M N K)
    (m n k : Nat) : op.generic.positionAt 2 [m, n, k]
      = either transC m n * either transC N M + either transC n m := by
  have hpos : op.generic.positionAt 2 [m, n, k]
      = (loopsMap 0 1 transC).positionAt op.out.type.shape [m, n, k] := by
    rw [GenericOp.positionAt, generic, h.maps]
    rfl
  rw [hpos, h.out, loopsMap_positionAt]
  cases transC <;> rfl

/-- The sizes the emitted sequence is built on, by the loops of its operands: `P`
rows and `R` columns of the result. -/
structure MatmulSizes (transA transB transC : Bool) (M N K P R : Nat) : Prop where
  lhsRows : P = either transA M K
  lhsCols : K = either transA K M
  rhsRows : K = either transB K N
  rhsCols : R = either transB N K
  outRows : P = either transC M N
  outCols : R = either transC N M

/-- **The store settles the shapes**: where the result has the shape of its tile,
the rows of B are the columns of A. -/
theorem IndexedMatmul.Shapes.emitted (h : op.Shapes transA transB transC M N K)
    (hout : op.out.type.shape = [matmulM op.lhs, matmulN op.rhs]) :
    MatmulSizes transA transB transC M N K (matmulM op.lhs) (matmulN op.rhs)
      ∧ MatmulShapes op.lhs op.rhs op.out (matmulM op.lhs) K (matmulN op.rhs) := by
  have hM : matmulM op.lhs = either transA M K := by rw [matmulM, h.lhs]; rfl
  have hN : matmulN op.rhs = either transB N K := by rw [matmulN, h.rhs]; rfl
  obtain ⟨h0, h1⟩ : matmulM op.lhs = either transC M N
      ∧ matmulN op.rhs = either transC N M := by
    have hstore := hout.symm.trans h.out
    injection hstore with h0 hstore
    injection hstore with h1
    exact ⟨h0, h1⟩
  obtain ⟨hA, hB⟩ : K = either transA K M ∧ K = either transB K N := by
    rw [hM] at h0
    rw [hN] at h1
    cases transA <;> cases transB <;> cases transC <;>
      simp only [either_false, either_true, true_and, and_true] at h0 h1 ⊢ <;> omega
  refine ⟨⟨hM, hA, hB, hN, h0, h1⟩, ?_, ?_, hout⟩
  · rw [h.lhs, ← hM, ← hA]
  · rw [h.rhs, ← hN, ← hB]

end Shapes

/-! ## What is computed -/

section Meaning

variable (F : Type) [Fp32 F] [CommSemiring F]

/-- Element `(m, n)` of the product, A and B read through their maps. -/
def IndexedMatmul.productAt (op : IndexedMatmul) (mem : Value → Nat → UInt16)
    (K m n : Nat) : F :=
  ∑ k ∈ Finset.range K,
    op.generic.elementAt mem [m, n, k] 0 * op.generic.elementAt mem [m, n, k] 1

/-- **The stream computes the product** of A and B read through their maps, from
any memory on which the arithmetic is exact. -/
def MatmulComputed (op : IndexedMatmul) (M N K : Nat) (layout : Layout)
    (xs : List EasmInsn) : Prop :=
  ∀ s : CModel, ExactMatmul F (layout.contents s op.lhs) (layout.contents s op.rhs)
      (matmulM op.lhs) (matmulK op.lhs) (matmulN op.rhs) (matmulK op.lhs / tileK) →
    ∀ m < M, ∀ n < N, ∃ s', runEasm F xs s = .ok s'
      ∧ Fp32.fp16ToFp32 (layout.contents s' op.out (op.generic.positionAt 2 [m, n, 0]))
        = op.productAt F (layout.contents s) K m n

end Meaning

/-- The maps mean what the pattern assumes: they are the default ones, or the
difference does not show. One element is its own transpose, and with A = B the
transpose of `Aᵀ Aᵀ` is `A A`. -/
def IndexedMatmul.AsWritten (op : IndexedMatmul) (M N : Nat) : Prop :=
  M = 0 ∨ N = 0 ∨ op.maps = matmulMaps false false false
    ∨ (op.maps = matmulMaps false false true ∧ M = 1 ∧ N = 1)
    ∨ (op.maps = matmulMaps true true true ∧ op.lhs = op.rhs)

theorem matmulMaps_inj : ∀ {a b c a' b' c' : Bool},
    matmulMaps a b c = matmulMaps a' b' c' → a = a' ∧ b = b' ∧ c = c' := by
  decide

/-- A sum with at most one term, which is one. -/
theorem sum_zero_or_one {F : Type} [CommSemiring F] {f : Nat → F} {m : Nat}
    (hother : ∀ k, k ≠ m → f k = 0) (hat : f m = 0 ∨ f m = 1) (count : Nat) :
    ∑ k ∈ Finset.range count, f k = 0 ∨ ∑ k ∈ Finset.range count, f k = 1 := by
  by_cases hk : m < count
  · rw [Finset.sum_eq_single_of_mem m (Finset.mem_range.mpr hk) fun k _ => hother k]
    exact hat
  · left
    refine Finset.sum_eq_zero fun k hmem => hother k ?_
    have := Finset.mem_range.mp hmem
    omega

section Computed

variable {F : Type} [Fp32 F] [CommSemiring F] {op : IndexedMatmul}
  {transA transB transC : Bool} {M N K P R : Nat} {layout : Layout} {p : Nat}
  {a : MatmulAddrs} {desc : UInt32}

/-- The product by rows and columns of the two arrays. -/
theorem IndexedMatmul.Shapes.productAt_eq (h : op.Shapes transA transB transC M N K)
    (z : MatmulSizes transA transB transC M N K P R) (mem : Value → Nat → UInt16)
    (m n : Nat) : op.productAt F mem K m n
      = ∑ k ∈ Finset.range K,
        Fp32.fp16ToFp32 (mem op.lhs (either transA m k * K + either transA k m))
          * Fp32.fp16ToFp32 (mem op.rhs (either transB k n * R + either transB n k)) := by
  refine Finset.sum_congr rfl fun k _ => ?_
  have hlhs : (op.generic.elementAt mem [m, n, k] 0 : F)
      = Fp32.fp16ToFp32 (mem op.lhs (op.generic.positionAt 0 [m, n, k])) := rfl
  have hrhs : (op.generic.elementAt mem [m, n, k] 1 : F)
      = Fp32.fp16ToFp32 (mem op.rhs (op.generic.positionAt 1 [m, n, k])) := rfl
  rw [hlhs, hrhs, h.position_lhs, h.position_rhs, ← z.lhsCols, ← z.rhsCols]

/-- The run of the stream, over exact arithmetic. -/
theorem run_exact (hs : MatmulShapes op.lhs op.rhs op.out P K R) (hP : 0 < P) (hR : 0 < R)
    (hK : 0 < K) (hK16 : K % tileK = 0)
    (hp : MatmulPlacement layout p op.lhs op.rhs op.out a)
    (g : MatmulGeometry a P K R (K / tileK) desc) {s : CModel}
    (hexact : ExactMatmul F (layout.contents s op.lhs) (layout.contents s op.rhs) P K R
      (K / tileK)) :
    ∃ s', runEasm F (matmulLines a P K R desc (K / tileK)) s = .ok s'
      ∧ ∀ i < P, ∀ j < R, (Fp32.fp16ToFp32 (layout.contents s' op.out (i * R + j)) : F)
        = ∑ k ∈ Finset.range K, Fp32.fp16ToFp32 (layout.contents s op.lhs (i * K + k))
          * Fp32.fp16ToFp32 (layout.contents s op.rhs (k * R + j)) := by
  have ht : K = K / tileK * tileK := (Nat.div_mul_cancel (Nat.dvd_of_mod_eq_zero hK16)).symm
  have hpos : 0 < K / tileK := by unfold tileK at *; omega
  obtain ⟨s', hs', hC⟩ := run_matmul (F := F) hs hP hR ht hpos hp g s
  have hlhs : layout.contents s op.lhs = ddrElem s a.lhs.toNat :=
    funext fun i => Layout.contents_eq hp.lhs s i
  have hrhs : layout.contents s op.rhs = ddrElem s a.rhs.toNat :=
    funext fun i => Layout.contents_eq hp.rhs s i
  rw [hlhs, hrhs] at hexact ⊢
  refine ⟨s', hs', ?_⟩
  intro i hi j hj
  rw [Layout.contents_eq hp.dst, hC i hi j hj, blockFold_exact hexact hi hj (by omega),
    productPrefix, Nat.sub_add_cancel hpos, ← ht]

/-! ## Arrays of ones -/

/-- One or zero. -/
def bit (b : Bool) : UInt16 := if b then 0x3C00 else 0

theorem read_bit (hF : ExactArith F) (b : Bool) :
    (Fp32.fp16ToFp32 (bit b) : F) = if b then 1 else 0 := by
  cases b with
  | false => exact hF.readZero
  | true => exact hF.readOne

/-- A and B are arrays of zeros and ones, A with its ones right above the
diagonal: every partial sum is zero or one. -/
structure OnesIn (layout : Layout) (s : CModel) (op : IndexedMatmul) (P K R : Nat)
    (onesA onesB : Nat → Nat → Bool) : Prop where
  lhs : ∀ i < P, ∀ k < K, layout.contents s op.lhs (i * K + k) = bit (onesA i k)
  rhs : ∀ k < K, ∀ j < R, layout.contents s op.rhs (k * R + j) = bit (onesB k j)
  diag : ∀ i k, onesA i k = true → k = i + 1

variable {onesA onesB : Nat → Nat → Bool} {s : CModel}

theorem OnesIn.product (hF : ExactArith F) (h : OnesIn layout s op P K R onesA onesB)
    {i k k' j : Nat} (hi : i < P) (hk : k < K) (hk' : k' < K) (hj : j < R) :
    (Fp32.fp16ToFp32 (layout.contents s op.lhs (i * K + k))
        * Fp32.fp16ToFp32 (layout.contents s op.rhs (k' * R + j)) : F)
      = if onesA i k && onesB k' j then 1 else 0 := by
  rw [h.lhs i hi k hk, h.rhs k' hk' j hj, read_bit hF, read_bit hF]
  cases onesA i k with
  | false => exact zero_mul _
  | true => exact one_mul _

theorem OnesIn.exactMatmul (hF : ExactArith F)
    (h : OnesIn layout s op P K R onesA onesB) :
    ExactMatmul F (layout.contents s op.lhs) (layout.contents s op.rhs) P K R
      (K / tileK) := by
  refine ⟨hF.zero, hF.add, hF.mul, ?_⟩
  intro i hi j hj b hb
  have hle : (b + 1) * tileK ≤ K :=
    (Nat.mul_le_mul_right tileK hb).trans (Nat.div_mul_le_self K tileK)
  have hsum : (productPrefix (layout.contents s op.lhs) (layout.contents s op.rhs) K R i j
      ((b + 1) * tileK) : F)
      = ∑ k ∈ Finset.range ((b + 1) * tileK), if onesA i k && onesB k j then 1 else 0 := by
    refine Finset.sum_congr rfl fun k hmem => ?_
    have hk := Finset.mem_range.mp hmem
    exact h.product hF hi (by omega) (by omega) hj
  rcases sum_zero_or_one (m := i + 1)
    (f := fun k => if onesA i k && onesB k j then (1 : F) else 0)
    (fun k hne => if_neg fun hone => hne (h.diag i k (Bool.and_eq_true_iff.mp hone).1))
    (by split_ifs <;> simp) ((b + 1) * tileK) with h0 | h1
  · rw [hsum, h0]
    exact hF.writeZero
  · rw [hsum, h1]
    exact hF.writeOne

/-- `ones` as a row-major array. -/
def flatOnes (cols : Nat) (ones : Nat → Nat → Bool) (i : Nat) : UInt16 :=
  bit (ones (i / cols) (i % cols))

theorem flatOnes_at {cols r c : Nat} (hc : c < cols) (ones : Nat → Nat → Bool) :
    flatOnes cols ones (r * cols + c) = bit (ones r c) := by
  rw [flatOnes, flat_div hc, flat_mod hc]

/-- `s` with an array of `n` elements written to DDR. -/
def withArray (s : CModel) (base n : Nat) (f : Nat → UInt16) : CModel
  | .sram x => s (.sram x)
  | .ddr x => if base ≤ x ∧ x < base + n * 2 then elemByte f (x - base) else s (.ddr x)

theorem ddrElem_withArray (s : CModel) {base n : Nat} (f : Nat → UInt16) {i : Nat}
    (hi : i < n) : ddrElem (withArray s base n f) base i = f i := by
  refine loadU16_elemByte ?_ ?_
  · show (if _ then _ else _) = _
    rw [if_pos (by omega), Nat.add_sub_cancel_left]
  · show (if _ then _ else _) = _
    rw [if_pos (by omega), Nat.add_assoc, Nat.add_sub_cancel_left]

theorem ddrElem_withArray_apart (s : CModel) {base n base' n' : Nat} (f : Nat → UInt16)
    (hap : ArraysApart base n base' n') {i : Nat} (hi : i < n') :
    ddrElem (withArray s base n f) base' i = ddrElem s base' i := by
  unfold ArraysApart at hap
  refine loadU16_congr (if_neg ?_) (if_neg ?_)
  · omega
  · omega

/-- Any two arrays, if they are apart. -/
theorem exists_onesIn {f g : Nat → Nat → Bool}
    (hp : MatmulPlacement layout p op.lhs op.rhs op.out a)
    (hap : ArraysApart a.lhs.toNat (P * K) a.rhs.toNat (K * R))
    (hdiag : ∀ i k, f i k = true → k = i + 1) :
    ∃ s, OnesIn layout s op P K R f g := by
  refine ⟨withArray (ddrHolding a.rhs.toNat (flatOnes R g)) a.lhs.toNat (P * K)
    (flatOnes K f), ?_, ?_, hdiag⟩
  · intro i hi k hk
    rw [Layout.contents_eq hp.lhs, ddrElem_withArray _ _ (flat_lt hi hk), flatOnes_at hk]
  · intro k hk j hj
    rw [Layout.contents_eq hp.rhs, ddrElem_withArray_apart _ _ hap (flat_lt hk hj),
      ddrElem_ddrHolding, flatOnes_at hj]

/-- The same array twice. -/
theorem exists_onesIn_same {f : Nat → Nat → Bool}
    (hp : MatmulPlacement layout p op.lhs op.rhs op.out a)
    (hsame : op.lhs = op.rhs) (hdiag : ∀ i k, f i k = true → k = i + 1) :
    ∃ s, OnesIn layout s op K K K f f := by
  have hrhs := hp.rhs
  rw [← hsame] at hrhs
  have hlhs : ∀ i k, k < K → layout.contents
      (ddrHolding a.rhs.toNat (flatOnes K f)) op.lhs (i * K + k) = bit (f i k) := by
    intro i k hk
    rw [Layout.contents_eq hrhs, ddrElem_ddrHolding, flatOnes_at hk]
  refine ⟨ddrHolding a.rhs.toNat (flatOnes K f), ?_, ?_, hdiag⟩
  · intro i _ k hk
    exact hlhs i k hk
  · intro k _ j hj
    rw [← hsame]
    exact hlhs k j hj

theorem either_lt {i j m n : Nat} (trans : Bool) (hi : i < m) (hj : j < n) :
    either trans i j < either trans m n := by
  cases trans with
  | false => exact hi
  | true => exact hj

/-! ## When it is computed -/

/-- The operation, its stream and where everything lies. -/
structure MatmulSetup (layout : Layout) (p : Nat) (op : IndexedMatmul) (a : MatmulAddrs)
    (desc : UInt32) (transA transB transC : Bool) (M N K P R : Nat) : Prop where
  shapes : op.Shapes transA transB transC M N K
  sizes : MatmulSizes transA transB transC M N K P R
  emitted : MatmulShapes op.lhs op.rhs op.out P K R
  placement : MatmulPlacement layout p op.lhs op.rhs op.out a
  geometry : MatmulGeometry a P K R (K / tileK) desc
  blocks : 0 < K ∧ K % tileK = 0

section Setup

variable (h : MatmulSetup layout p op a desc transA transB transC M N K P R)

include h

theorem MatmulSetup.tile_le : 16 ≤ K := by
  obtain ⟨hpos, hmod⟩ := h.blocks
  unfold tileK at hmod
  omega

/-- What the stream computes at the output element of loops `(m, n)`, and what
the operation asks for there. -/
theorem MatmulSetup.computed_iff :
    MatmulComputed F op M N K layout (matmulLines a P K R desc (K / tileK))
      ↔ ∀ s : CModel, ExactMatmul F (layout.contents s op.lhs) (layout.contents s op.rhs)
          P K R (K / tileK) → ∀ m < M, ∀ n < N,
        ∑ k ∈ Finset.range K,
            (Fp32.fp16ToFp32 (layout.contents s op.lhs (either transC m n * K + k))
              * Fp32.fp16ToFp32 (layout.contents s op.rhs (k * R + either transC n m)) : F)
          = ∑ k ∈ Finset.range K,
            Fp32.fp16ToFp32 (layout.contents s op.lhs
                (either transA m k * K + either transA k m))
              * Fp32.fp16ToFp32 (layout.contents s op.rhs
                (either transB k n * R + either transB n k)) := by
  have hM := h.emitted.matmulM
  have hK := h.emitted.matmulK
  have hN := h.emitted.matmulN
  unfold MatmulComputed
  rw [hM, hK, hN]
  refine forall_congr' fun s => ?_
  refine forall_congr' fun hexact => ?_
  refine forall_congr' fun m => ?_
  refine forall_congr' fun hm => ?_
  refine forall_congr' fun n => ?_
  refine forall_congr' fun hn => ?_
  have hrow : either transC m n < P := by
    rw [h.sizes.outRows]
    exact either_lt transC hm hn
  have hcol : either transC n m < R := by
    rw [h.sizes.outCols]
    exact either_lt transC hn hm
  obtain ⟨s', hs', hval⟩ := run_exact (F := F) h.emitted (by omega) (by omega) h.blocks.1
    h.blocks.2 h.placement h.geometry hexact
  rw [h.shapes.position_out, h.shapes.productAt_eq h.sizes, ← h.sizes.outCols,
    ← hval _ hrow _ hcol]
  constructor
  · rintro ⟨t, ht, hval'⟩
    rw [hs'] at ht
    cases ht
    exact hval'
  · intro heq
    exact ⟨s', hs', heq⟩

/-- **Maps that mean what the pattern assumes are computed.** -/
theorem MatmulSetup.computed (hw : op.AsWritten M N) :
    MatmulComputed F op M N K layout (matmulLines a P K R desc (K / tileK)) := by
  rw [h.computed_iff]
  intro s _ m hm n hn
  have hmaps := h.shapes.maps
  rcases hw with hM | hN | hdefault | ⟨hout, rfl, rfl⟩ | ⟨hall, hsame⟩
  · omega
  · omega
  · obtain ⟨rfl, rfl, rfl⟩ := matmulMaps_inj (hmaps.symm.trans hdefault)
    rfl
  · obtain ⟨rfl, rfl, rfl⟩ := matmulMaps_inj (hmaps.symm.trans hout)
    obtain rfl : m = 0 := by omega
    obtain rfl : n = 0 := by omega
    rfl
  · obtain ⟨rfl, rfl, rfl⟩ := matmulMaps_inj (hmaps.symm.trans hall)
    -- A = B is square, and the factors change places
    have hR : R = K := by
      have := h.sizes.rhsCols
      rwa [either_true] at this
    rw [hR, hsame]
    refine Finset.sum_congr rfl fun k _ => ?_
    exact mul_comm _ _

/-- **A one in its place, and none in the transpose's**: the stream leaves it
where the operation has a zero. -/
theorem MatmulSetup.not_computed [Nontrivial F] (hF : ExactArith F)
    (hones : OnesIn layout s op P K R onesA onesB) {m n c : Nat} (hm : m < M) (hn : n < N)
    (hrow : either transC m n = 0) (hcol : either transC n m = c)
    (hA : onesA 0 1 = true) (hB : onesB 1 c = true)
    (hzero : ∀ k < K, ¬ (onesA (either transA m k) (either transA k m) = true
      ∧ onesB (either transB k n) (either transB n k) = true)) :
    ¬ MatmulComputed F op M N K layout (matmulLines a P K R desc (K / tileK)) := by
  rw [h.computed_iff]
  intro hall
  have hval := hall s (hones.exactMatmul hF) m hm n hn
  have hK := h.tile_le
  have hP : 0 < P := by
    rw [h.sizes.outRows, ← hrow]
    exact either_lt transC hm hn
  have hR : c < R := by
    rw [h.sizes.outCols, ← hcol]
    exact either_lt transC hn hm
  rw [hrow, hcol] at hval
  -- only column 1 of row 0 has a one
  have hone : ∑ k ∈ Finset.range K,
      (Fp32.fp16ToFp32 (layout.contents s op.lhs (0 * K + k))
        * Fp32.fp16ToFp32 (layout.contents s op.rhs (k * R + c)) : F) = 1 := by
    have h1 : 1 ∈ Finset.range K := Finset.mem_range.mpr (by omega)
    rw [Finset.sum_eq_single_of_mem 1 h1, hones.product hF hP (by omega) (by omega) hR,
      if_pos (by rw [hA, hB]; rfl)]
    intro k hk hne
    have hk := Finset.mem_range.mp hk
    rw [hones.product hF hP hk hk hR, if_neg]
    intro hbits
    exact hne (hones.diag 0 k (Bool.and_eq_true_iff.mp hbits).1)
  have hnone : ∑ k ∈ Finset.range K,
      (Fp32.fp16ToFp32 (layout.contents s op.lhs
          (either transA m k * K + either transA k m))
        * Fp32.fp16ToFp32 (layout.contents s op.rhs
          (either transB k n * R + either transB n k)) : F) = 0 := by
    refine Finset.sum_eq_zero fun k hk => ?_
    have hk := Finset.mem_range.mp hk
    have hrowA : either transA m k < P := by
      rw [h.sizes.lhsRows]
      exact either_lt transA hm hk
    have hcolA : either transA k m < K := by
      conv_rhs => rw [h.sizes.lhsCols]
      exact either_lt transA hk hm
    have hrowB : either transB k n < K := by
      conv_rhs => rw [h.sizes.rhsRows]
      exact either_lt transB hk hn
    have hcolB : either transB n k < R := by
      rw [h.sizes.rhsCols]
      exact either_lt transB hn hk
    rw [hones.product hF hrowA hcolA hrowB hcolB, if_neg]
    intro hbits
    exact hzero k hk (Bool.and_eq_true_iff.mp hbits)
  rw [hone, hnone] at hval
  exact one_ne_zero hval

/-- Two arrays with a single one each tell the maps apart. -/
theorem MatmulSetup.asWritten_apart [Nontrivial F] (hF : ExactArith F)
    (hap : ArraysApart a.lhs.toNat (P * K) a.rhs.toNat (K * R))
    (hcomp : MatmulComputed F op M N K layout (matmulLines a P K R desc (K / tileK))) :
    op.AsWritten M N := by
  have hK := h.tile_le
  obtain ⟨hP, hKA, hKB, hR, hPC, hRC⟩ := h.sizes
  by_contra hw
  have hmaps := h.shapes.maps
  simp only [IndexedMatmul.AsWritten, hmaps, not_or] at hw
  obtain ⟨hM, hN, hdefault, hout, -⟩ := hw
  obtain ⟨s, hones⟩ := exists_onesIn h.placement hap
    (f := fun i k => decide (i = 0 ∧ k = 1))
    (g := fun k j => decide (k = 1 ∧ j = either transC 0 1)) (fun i k hone => by
      have := of_decide_eq_true hone
      omega)
  cases transC with
  | false =>
      -- loops (0, 0)
      refine h.not_computed hF hones (m := 0) (n := 0) (by omega) (by omega) rfl rfl
        (by decide) (by decide) ?_ hcomp
      intro k hk ⟨hA, hB⟩
      have hA := of_decide_eq_true hA
      have hB := of_decide_eq_true hB
      cases transA with
      | true => simp only [either_true] at hA; omega
      | false =>
          cases transB with
          | true => simp only [either_true] at hB; omega
          | false => exact hdefault rfl
  | true =>
      -- loops (1, 0): there is a second row
      have hM2 : 1 < M := by
        by_contra hle
        cases transA <;> cases transB <;>
          simp only [either_false, either_true] at hP hKA hKB hR hPC hRC
        · exact hout ⟨rfl, by omega, by omega⟩
        · omega
        · omega
        · omega
      refine h.not_computed hF hones (m := 1) (n := 0) hM2 (by omega) rfl rfl
        (by decide) (by decide) ?_ hcomp
      intro k hk ⟨hA, hB⟩
      have hA := of_decide_eq_true hA
      have hB := of_decide_eq_true hB
      cases transA with
      | false => simp only [either_false] at hA; omega
      | true =>
          cases transB with
          | true => simp only [either_true] at hA hB; omega
          | false => simp only [either_true, either_false] at hA hB; omega

/-- So does one array with two ones, read as both operands. -/
theorem MatmulSetup.asWritten_same [Nontrivial F] (hF : ExactArith F)
    (hsame : op.lhs = op.rhs)
    (hcomp : MatmulComputed F op M N K layout (matmulLines a P K R desc (K / tileK))) :
    op.AsWritten M N := by
  have hK := h.tile_le
  -- the one buffer is square
  obtain ⟨rfl, rfl⟩ : P = K ∧ R = P := by
    have hshape := h.emitted.lhs
    rw [hsame, h.emitted.rhs] at hshape
    cases hshape
    exact ⟨rfl, rfl⟩
  obtain ⟨hP, hKA, hKB, hR, hPC, hRC⟩ := h.sizes
  by_contra hw
  have hmaps := h.shapes.maps
  simp only [IndexedMatmul.AsWritten, hmaps, not_or] at hw
  obtain ⟨hM, hN, hdefault, -, hall⟩ := hw
  obtain ⟨s, hones⟩ := exists_onesIn_same (K := R) h.placement hsame
    (f := fun i k => decide ((i = 0 ∧ k = 1) ∨ (i = 1 ∧ k = 2))) (fun i k hone => by
      have := of_decide_eq_true hone
      omega)
  cases transC with
  | false =>
      -- loops (0, 2)
      simp only [either_false] at hPC hRC
      refine h.not_computed hF hones (m := 0) (n := 2) (by omega) (by omega) rfl rfl
        (by decide) (by decide) ?_ hcomp
      intro k hk ⟨hA, hB⟩
      have hA := of_decide_eq_true hA
      have hB := of_decide_eq_true hB
      cases transA with
      | true => simp only [either_true] at hA; omega
      | false =>
          cases transB with
          | true => simp only [either_true] at hB; omega
          | false => exact hdefault rfl
  | true =>
      -- loops (2, 0)
      simp only [either_true] at hPC hRC
      refine h.not_computed hF hones (m := 2) (n := 0) (by omega) (by omega) rfl rfl
        (by decide) (by decide) ?_ hcomp
      intro k hk ⟨hA, hB⟩
      have hA := of_decide_eq_true hA
      have hB := of_decide_eq_true hB
      cases transA with
      | false => simp only [either_false] at hA; omega
      | true =>
          cases transB with
          | true => exact hall ⟨rfl, hsame⟩
          | false => simp only [either_false] at hB; omega

end Setup

end Computed

/-- What an accepted matmul becomes, and the shapes its verifiers have checked. -/
theorem convertOp_matmul {op : IndexedMatmul} {l : Lowering}
    (h : convertOp op.linalg = some l) :
    l = .matmul op.lhs op.rhs op.out
      ∧ op.lhs.type.shape = [matmulM op.lhs, matmulK op.lhs]
      ∧ op.rhs.type.shape = [matmulK op.lhs, matmulN op.rhs]
      ∧ op.out.type.shape = [matmulM op.lhs, matmulN op.rhs]
      ∧ 0 < matmulK op.lhs ∧ matmulK op.lhs % tileK = 0 := by
  -- the pattern takes every matmul
  obtain ⟨_, hverify, h⟩ := Option.bind_eq_some_iff.mp h
  cases h
  have hverify := (Option.guard_eq_some' _).mp hverify
  simp only [Lowering.verify, isF16, Bool.and_eq_true, decide_eq_true_eq] at hverify
  obtain ⟨⟨⟨hlhs, hrhs⟩, hout⟩, hK⟩ := hverify
  exact ⟨rfl, hlhs.1, hrhs.1, hout.1, hK⟩

/-- **When matmul lowering honours the operand layout**: the stream emitted for
an accepted `linalg.matmul` computes the product of A and B read through their
maps if and only if the maps mean what the pattern assumes. -/
theorem matmulLowering_maps_iff {op : IndexedMatmul} {l : Lowering}
    (hmaps : op.MapsLegal) (hconv : convertOp op.linalg = some l) {M N K : Nat}
    (hnest : LoopNest op.generic.operands op.generic.maps [M, N, K]) {layout : Layout}
    {p : Nat} {a : MatmulAddrs} {desc : UInt32}
    (hp : MatmulPlacement layout p op.lhs op.rhs op.out a)
    (g : MatmulGeometry a (matmulM op.lhs) (matmulK op.lhs) (matmulN op.rhs)
      (matmulK op.lhs / tileK) desc)
    (hap : op.lhs ≠ op.rhs → ArraysApart a.lhs.toNat (matmulM op.lhs * matmulK op.lhs)
      a.rhs.toNat (matmulK op.lhs * matmulN op.rhs))
    (F : Type) [Fp32 F] [CommSemiring F] [Nontrivial F] (hF : ExactArith F) :
    ∃ xs next, emitInsts layout desc (unrollBody (l.expand p)) = some (xs, next)
      ∧ (MatmulComputed F op M N K layout xs ↔ op.AsWritten M N) := by
  obtain ⟨rfl, hlhs, hrhs, hout, hK⟩ := convertOp_matmul hconv
  obtain ⟨transA, transB, transC, hmaps⟩ := hmaps.maps_eq
  have hshapes := IndexedMatmul.shapes_of_nest hmaps hnest hlhs hrhs hout
  obtain ⟨hsizes, hemitted⟩ := hshapes.emitted hout
  have hKeq := hemitted.matmulK
  rw [hKeq] at g hap hK
  have h : MatmulSetup layout p op a desc transA transB transC M N K (matmulM op.lhs)
      (matmulN op.rhs) := ⟨hshapes, hsizes, hemitted, hp, g, hK⟩
  have htiles : 0 < K / tileK := Nat.div_pos h.tile_le (by decide)
  refine ⟨_, _, emitInsts_lowerMatmul hp hemitted htiles desc, ?_⟩
  constructor
  · intro hcomp
    by_cases hsame : op.lhs = op.rhs
    · exact h.asWritten_same hF hsame hcomp
    · exact h.asWritten_apart hF (hap hsame) hcomp
  · exact h.computed

/-! ### Square operands, plain and as `Q * Kᵀ` -/

def squareLhs : Value := .blockArg 0 0 (f16Type 16 16)
def squareRhs : Value := .blockArg 0 1 (f16Type 16 16)
def squareOut : Value := .alloc ⟨0, .user 0⟩ (f16Type 16 16) (some 64)

def indexedSquare (transB : Bool) : IndexedMatmul :=
  { lhs := squareLhs, rhs := squareRhs, out := squareOut
    maps := matmulMaps false transB false }

def squareAddrs : MatmulAddrs :=
  { lhsTile := 0x10000000, rhsTile := 0x10000200, dstTile := 0x10000400
    lhs := 0x40010000, rhs := 0x40020000, dst := 0x40030000 }

def indexedLayout : Layout :=
  [(lhsTile 0 squareLhs, .sram 0x10000000), (rhsTile 0 squareRhs, .sram 0x10000200),
    (dstTile 0 squareLhs squareRhs squareOut, .sram 0x10000400),
    (squareLhs, .ddr 0x40010000), (squareRhs, .ddr 0x40020000),
    (squareOut, .ddr 0x40030000)]

theorem squarePlacement :
    MatmulPlacement indexedLayout 0 squareLhs squareRhs squareOut squareAddrs := by
  constructor <;> rfl

theorem squareGeometry : MatmulGeometry squareAddrs 16 16 16 1 DESC_STARTADDR := by
  constructor <;> decide

theorem squareShapes (transB : Bool) :
    (indexedSquare transB).Shapes false transB false 16 16 16 := by
  cases transB <;> exact ⟨rfl, rfl, rfl, rfl⟩

/-- The default maps are computed. -/
theorem matmulLowering_maps_iff_default :
    ∃ xs next, emitInsts indexedLayout DESC_STARTADDR
        (unrollBody (lowerMatmul 0 squareLhs squareRhs squareOut)) = some (xs, next)
      ∧ @MatmulComputed Int Fp32.integers _ (indexedSquare false) 16 16 16 indexedLayout xs := by
  obtain ⟨xs, next, hemit, hiff⟩ := @matmulLowering_maps_iff (indexedSquare false)
    (.matmul squareLhs squareRhs squareOut)
    (.cons ⟨rfl, rfl, .refl _⟩ (.cons ⟨rfl, rfl, .refl _⟩ (.cons ⟨rfl, rfl, .refl _⟩ .nil)))
    rfl 16 16 16 (squareShapes false).loopNest indexedLayout 0 squareAddrs DESC_STARTADDR
    squarePlacement squareGeometry (fun _ => by decide) Int Fp32.integers _ _ integers_exact
  exact ⟨xs, next, hemit, hiff.mpr (.inr (.inr (.inl rfl)))⟩

/-- **`Q * Kᵀ` becomes `Q * K`**: with B read transposed, a square matmul is
accepted, and what it computes is another product. -/
theorem matmul_transB_ignored :
    (indexedSquare true).MapsLegal
      ∧ convertOp (indexedSquare true).linalg
        = some (.matmul squareLhs squareRhs squareOut)
      ∧ LoopNest (indexedSquare true).generic.operands (indexedSquare true).generic.maps
          [16, 16, 16]
      ∧ ∃ xs next, emitInsts indexedLayout DESC_STARTADDR
          (unrollBody (lowerMatmul 0 squareLhs squareRhs squareOut)) = some (xs, next)
        ∧ ¬ @MatmulComputed Int Fp32.integers _ (indexedSquare true) 16 16 16 indexedLayout
          xs := by
  have h : MatmulSetup indexedLayout 0 (indexedSquare true) squareAddrs DESC_STARTADDR
      false true false 16 16 16 16 16 :=
    ⟨squareShapes true, ⟨rfl, rfl, rfl, rfl, rfl, rfl⟩, ⟨rfl, rfl, rfl⟩, squarePlacement,
      squareGeometry, by decide⟩
  refine ⟨.cons ⟨rfl, rfl, .refl _⟩ (.cons ⟨rfl, rfl, .swap _ _ _⟩
    (.cons ⟨rfl, rfl, .refl _⟩ .nil)), rfl, (squareShapes true).loopNest, _, _,
    emitInsts_lowerMatmul squarePlacement ⟨rfl, rfl, rfl⟩ (by decide) _, ?_⟩
  intro hcomp
  have hw := @MatmulSetup.asWritten_apart Int Fp32.integers _ _ _ _ _ _ _ _ _ _ _ _ _ _ h _
    integers_exact (by decide) hcomp
  revert hw
  unfold IndexedMatmul.AsWritten
  decide

end EclipseNpu.Compiler

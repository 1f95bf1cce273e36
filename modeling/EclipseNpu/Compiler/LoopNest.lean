import EclipseNpu.Compiler.EwiseBroadcast
import Mathlib.Algebra.Ring.Defs
import Mathlib.Algebra.Ring.Int.Defs

/-!
# Compiler — LoopNest

What a structured operation computes: its loop points in execution order, the
element every operand's indexing map picks at a point, and the body there.

The ranges of the loops are not written in the operation. MLIR reads them off
the operand shapes through the maps, and its verifier keeps every map inside
its operand; `LoopNest` says both.
-/

namespace EclipseNpu.Compiler

open EclipseNpu.Runtime

/-! ## Loop points -/

/-- The points of a loop nest, the last loop innermost. -/
def points : List Nat → List (List Nat)
  | [] => [[]]
  | bound :: bounds =>
      (List.range bound).flatMap fun i => (points bounds).map fun p => i :: p

theorem mem_points_cons {bound : Nat} {bounds p : List Nat} :
    p ∈ points (bound :: bounds) ↔ ∃ i < bound, ∃ q ∈ points bounds, p = i :: q := by
  simp only [points, List.mem_flatMap, List.mem_range, List.mem_map]
  constructor
  · rintro ⟨i, hi, q, hq, rfl⟩
    exact ⟨i, hi, q, hq, rfl⟩
  · rintro ⟨i, hi, q, hq, rfl⟩
    exact ⟨i, hi, q, hq, rfl⟩

/-- The points of two loops, row by row. -/
theorem mem_points_pair {rows cols : Nat} {p : List Nat} :
    p ∈ points [rows, cols] ↔ ∃ r < rows, ∃ c < cols, p = [r, c] := by
  rw [mem_points_cons]
  constructor
  · rintro ⟨r, hr, q, hq, rfl⟩
    obtain ⟨c, hc, q', hq', rfl⟩ := mem_points_cons.mp hq
    obtain rfl := List.mem_singleton.mp hq'
    exact ⟨r, hr, c, hc, rfl⟩
  · rintro ⟨r, hr, c, hc, rfl⟩
    exact ⟨r, hr, [c], mem_points_cons.mpr ⟨c, hc, [], List.mem_singleton_self _, rfl⟩, rfl⟩

/-- The points of three loops. -/
theorem mem_points_triple {M N K : Nat} {p : List Nat} :
    p ∈ points [M, N, K] ↔ ∃ m < M, ∃ n < N, ∃ k < K, p = [m, n, k] := by
  rw [mem_points_cons]
  constructor
  · rintro ⟨m, hm, q, hq, rfl⟩
    obtain ⟨n, hn, k, hk, rfl⟩ := mem_points_pair.mp hq
    exact ⟨m, hm, n, hn, k, hk, rfl⟩
  · rintro ⟨m, hm, n, hn, k, hk, rfl⟩
    exact ⟨m, hm, [n, k], mem_points_pair.mpr ⟨n, hn, k, hk, rfl⟩, rfl⟩

/-! ## Positions -/

/-- An index expression at a point. -/
def AffineExpr.evalAt (e : AffineExpr) (p : List Nat) : Int :=
  e.eval (p.map Int.ofNat) []

/-- The position a map picks at a point. -/
def AffineMap.positionAt (m : AffineMap) (shape p : List Nat) : Nat :=
  flatPosition shape (m.results.map fun e => e.evalAt p)

/-- The map stays inside its operand. -/
def AffineMap.InBounds (m : AffineMap) (shape p : List Nat) : Prop :=
  List.Forall₂ (fun (e : AffineExpr) (n : Nat) => 0 ≤ e.evalAt p ∧ e.evalAt p < n) m.results shape

theorem AffineMap.position_eq (m : AffineMap) (shape : List Nat) (r c : Nat) :
    m.position shape r c = m.positionAt shape [r, c] := rfl

/-- A row-major position, with `k` elements to the left of the first index. -/
theorem foldl_position_lt {shape : List Nat} {index : List Int}
    (h : List.Forall₂ (fun (i : Int) (n : Nat) => 0 ≤ i ∧ i < n) index shape) :
    ∀ {acc : Int} {k : Nat}, 0 ≤ acc → acc < k →
      0 ≤ (shape.zip index).foldl (fun acc p => acc * (p.1 : Int) + p.2) acc
        ∧ (shape.zip index).foldl (fun acc p => acc * (p.1 : Int) + p.2) acc
          < ((k * shape.prod : Nat) : Int) := by
  induction h with
  | nil =>
      intro acc k h0 hk
      rw [List.prod_nil, Nat.mul_one]
      exact ⟨h0, hk⟩
  | @cons i n index shape hin _ ih =>
      intro acc k h0 hk
      obtain ⟨hi0, hin⟩ := hin
      have hle : (acc + 1) * (n : Int) ≤ k * n :=
        Int.mul_le_mul_of_nonneg_right (by omega) (by omega)
      rw [Int.add_mul, Int.one_mul] at hle
      have hnext : acc * (n : Int) + i < ((k * n : Nat) : Int) := by
        rw [Int.natCast_mul]
        omega
      rw [List.prod_cons, ← Nat.mul_assoc]
      exact ih (Int.add_nonneg (Int.mul_nonneg h0 (by omega)) hi0) hnext

/-- **A map inside its operand picks an element of it.** -/
theorem AffineMap.InBounds.lt {m : AffineMap} {shape p : List Nat}
    (h : m.InBounds shape p) : m.positionAt shape p < shape.prod := by
  have hindex : List.Forall₂ (fun (i : Int) (n : Nat) => 0 ≤ i ∧ i < n)
      (m.results.map fun e => e.evalAt p) shape := List.forall₂_map_left_iff.mpr h
  obtain ⟨h0, hlt⟩ := foldl_position_lt hindex (k := 1) (Int.le_refl 0) (by decide)
  rw [Nat.one_mul] at hlt
  show Int.toNat _ < _
  omega

/-- **The loops of an operation**, as MLIR's verifier leaves them: a plain
dimension runs over the whole operand, and every map stays inside. -/
structure LoopNest (operands : List Value) (maps : List AffineMap) (bounds : List Nat) :
    Prop where
  arity : maps.length = operands.length
  dims : ∀ m ∈ maps, m.numDims = bounds.length ∧ m.numSymbols = 0
  range : ∀ (k : Nat) (v : Value) (m : AffineMap), operands[k]? = some v →
    maps[k]? = some m → ∀ (i j : Nat), m.results[j]? = some (.dim i) → bounds[i]? = v.type.shape[j]?
  inBounds : ∀ p ∈ points bounds, ∀ (k : Nat) (v : Value) (m : AffineMap),
    operands[k]? = some v → maps[k]? = some m → m.InBounds v.type.shape p

/-! ## The body at a point -/

def GenericOp.operands (op : GenericOp) : List Value := op.inputs ++ op.outputs

/-- The position in operand `k` that belongs to a point. -/
def GenericOp.positionAt (op : GenericOp) (k : Nat) (p : List Nat) : Nat :=
  match op.operands[k]?, op.maps[k]? with
  | some v, some m => m.positionAt v.type.shape p
  | _, _ => 0

/-- It is a position of the operand. -/
theorem LoopNest.positionAt_lt {op : GenericOp} {bounds p : List Nat}
    (h : LoopNest op.operands op.maps bounds) (hp : p ∈ points bounds) {k : Nat} {v : Value}
    (hv : op.operands[k]? = some v) : op.positionAt k p < v.type.numElements := by
  have hk : k < op.maps.length := by
    rw [h.arity]
    exact (List.getElem?_eq_some_iff.mp hv).1
  have hm : op.maps[k]? = some op.maps[k] := List.getElem?_eq_getElem hk
  rw [GenericOp.positionAt, hv, hm]
  exact (h.inBounds p hp k v _ hv hm).lt

section Body

variable {F : Type} [Fp32 F]

/-- The element operand `k` shows at a point; `mem` gives the contents of
every memref. -/
def GenericOp.elementAt (op : GenericOp) (mem : Value → Nat → UInt16) (p : List Nat)
    (k : Nat) : F :=
  match op.operands[k]? with
  | some v => Fp32.fp16ToFp32 (mem v (op.positionAt k p))
  | none => Fp32.zero

/-- The block arguments at a point, the output's element being `acc`. -/
def GenericOp.argsAt (op : GenericOp) (mem : Value → Nat → UInt16) (acc : F)
    (p : List Nat) (k : Nat) : F :=
  if k < op.inputs.length then op.elementAt mem p k else acc

/-- A scalar of the body at a point. -/
def GenericOp.bodyAt (op : GenericOp) (mem : Value → Nat → UInt16) (unknown : Nat → F)
    (e : ScalarExpr) (acc : F) (p : List Nat) : F :=
  e.eval (op.argsAt mem acc p) unknown

/-- With one input, the arguments are its element and the output's. -/
theorem GenericOp.argsAt_unary {op : GenericOp} {src : Value} (hin : op.inputs = [src])
    (mem : Value → Nat → UInt16) (acc : F) (p : List Nat) :
    op.argsAt mem acc p 0 = Fp32.fp16ToFp32 (mem src (op.positionAt 0 p))
      ∧ op.argsAt mem acc p 1 = acc := by
  have hop : op.operands[0]? = some src := by
    rw [GenericOp.operands, hin]
    rfl
  constructor
  · rw [argsAt, hin, List.length_singleton, if_pos (by decide), elementAt, hop]
  · rw [argsAt, hin, List.length_singleton, if_neg (by decide)]

/-- **Element `i` of the output after the loops**: the points that pick it, in
execution order, each applying the body to the value so far. -/
def GenericOp.reduceAt (op : GenericOp) (mem : Value → Nat → UInt16) (unknown : Nat → F)
    (e : ScalarExpr) (init : F) (bounds : List Nat) (i : Nat) : F :=
  ((points bounds).filter fun p => op.positionAt 1 p = i).foldl
    (fun acc p => op.bodyAt mem unknown e acc p) init

end Body

/-- The points of row `i`. -/
def rowPoints (i cols : Nat) : List (List Nat) := (List.range cols).map fun c => [i, c]

theorem points_pair (rows cols : Nat) :
    points [rows, cols] = (List.range rows).flatMap fun r => rowPoints r cols := by
  refine List.flatMap_congr fun r _ => ?_
  rw [rowPoints, points, List.map_flatMap]
  exact (List.map_eq_flatMap ..).symm

/-- Points whose target is their row: those of target `i` are row `i`. -/
theorem filter_points_row {target : List Nat → Nat} {rows cols i : Nat} (hi : i < rows)
    (h : ∀ r < rows, ∀ c < cols, target [r, c] = r) :
    ((points [rows, cols]).filter fun p => target p = i) = rowPoints i cols := by
  have hrow : ∀ r < rows, ((rowPoints r cols).filter fun p => target p = i)
      = if r = i then rowPoints i cols else [] := by
    intro r hr
    have htarget : ∀ p ∈ rowPoints r cols, target p = r := by
      intro p hp
      obtain ⟨c, hc, rfl⟩ := List.mem_map.mp hp
      exact h r hr c (List.mem_range.mp hc)
    by_cases hri : r = i
    · subst hri
      rw [if_pos rfl, List.filter_eq_self]
      intro p hp
      exact decide_eq_true (htarget p hp)
    · rw [if_neg hri, List.filter_eq_nil_iff]
      intro p hp hpi
      exact hri ((htarget p hp).symm.trans (of_decide_eq_true hpi))
  have honly : ∀ n ≤ rows, ((List.range n).flatMap fun r => rowPoints r cols).filter
      (fun p => target p = i) = if i < n then rowPoints i cols else [] := by
    intro n
    induction n with
    | zero => intro _; rfl
    | succ n ih =>
        intro hn
        rw [List.range_succ, List.flatMap_append, List.filter_append, ih (by omega),
          List.flatMap_cons, List.flatMap_nil, List.append_nil, hrow n (by omega)]
        rcases Nat.lt_trichotomy i n with hlt | rfl | hgt
        · rw [if_pos hlt, if_neg (by omega), if_pos (by omega), List.append_nil]
        · rw [if_neg (by omega), if_pos rfl, if_pos (by omega), List.nil_append]
        · rw [if_neg (by omega), if_neg (by omega), if_neg (by omega), List.nil_append]
  rw [points_pair, honly rows (Nat.le_refl rows), if_pos hi]

/-- **Exact arithmetic**: the operations are those of a semiring, and the two
formats agree on zero and one. -/
structure ExactArith (F : Type) [Fp32 F] [CommSemiring F] : Prop where
  zero : (Fp32.zero : F) = 0
  add : ∀ x y : F, Fp32.add x y = x + y
  mul : ∀ x y : F, Fp32.mul x y = x * y
  readZero : (Fp32.fp16ToFp32 0 : F) = 0
  readOne : (Fp32.fp16ToFp32 0x3C00 : F) = 1
  writeZero : (Fp32.fp16ToFp32 (Fp32.fp32ToFp16 (0 : F)) : F) = 0
  writeOne : (Fp32.fp16ToFp32 (Fp32.fp32ToFp16 (1 : F)) : F) = 1

/-- Small integers, stored exactly. -/
theorem integers_exact : @ExactArith Int Fp32.integers _ :=
  @ExactArith.mk Int Fp32.integers _ rfl (fun _ _ => rfl) (fun _ _ => rfl)
    (by decide) (by decide) (by decide) (by decide)

/-- The contents of a memref in DDR. -/
def Layout.contents (layout : Layout) (s : CModel) (v : Value) (i : Nat) : UInt16 :=
  match ddrBaseAddr layout v with
  | some addr => ddrElem s addr.toNat i
  | none => 0

theorem Layout.contents_eq {layout : Layout} {v : Value} {addr : UInt32}
    (h : ddrBaseAddr layout v = some addr) (s : CModel) (i : Nat) :
    layout.contents s v i = ddrElem s addr.toNat i := by
  rw [Layout.contents, h]

end EclipseNpu.Compiler

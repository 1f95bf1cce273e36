import EclipseNpu.Compiler.Lowering
import EclipseNpu.Compiler.MatmulStream
import EclipseNpu.Compiler.UnaryStream
import EclipseNpu.Runtime.Kernels
import Mathlib.Algebra.BigOperators.Intervals
import Mathlib.Algebra.Ring.Int.Defs

/-!
# Compiler — MatmulEndToEnd

A lowered, emitted and executed matmul computes the product. The invariant
of the run over the blocks: DDR is what the first block found, and every
element of the SRAM result tile is the fold of the blocks executed so far
(`blockFold`); the input tiles hold whatever the last block left.
-/

namespace EclipseNpu.Compiler

open EclipseNpu.Lib EclipseNpu.Runtime

/-! ## What is computed -/

section Values

variable (F : Type) [Fp32 F]

/-- The products of K block `b`, summed from zero. -/
def blockSum (A B : Nat → UInt16) (K N m n b : Nat) : F :=
  dotProduct F (fun k => A (m * K + (b * tileK + k)))
    (fun k => B ((b * tileK + k) * N + n)) tileK

/-- One block applied to the stored element. -/
def blockStep (A B : Nat → UInt16) (K N m n b : Nat) (old : UInt16) : UInt16 :=
  Fp32.fp32ToFp16 (if b = 0 then blockSum F A B K N m n b
    else Fp32.add (blockSum F A B K N m n b) (Fp32.fp16ToFp32 old))

/-- **The block-wise fold**: the element after the blocks `0` to `b`,
rounded to fp16 once per block. -/
def blockFold (A B : Nat → UInt16) (K N m n : Nat) : Nat → UInt16
  | 0 => Fp32.fp32ToFp16 (blockSum F A B K N m n 0)
  | b + 1 => Fp32.fp32ToFp16 (Fp32.add (blockSum F A B K N m n (b + 1))
      (Fp32.fp16ToFp32 (blockFold A B K N m n b)))

variable {F}

theorem blockStep_fold (A B : Nat → UInt16) (K N m n b : Nat) :
    blockStep F A B K N m n (b + 1) (blockFold F A B K N m n b)
      = blockFold F A B K N m n (b + 1) := by
  rw [blockStep, if_neg (by omega)]
  rfl

end Values

/-! ## Exact arithmetic -/

section Exact

variable {F : Type} [Fp32 F] [Semiring F]

/-- The product of row `m` of A and column `n` of B over the first `count`
values of `k`. -/
def productPrefix (A B : Nat → UInt16) (K N m n count : Nat) : F :=
  ∑ k ∈ Finset.range count,
    Fp32.fp16ToFp32 (A (m * K + k)) * Fp32.fp16ToFp32 (B (k * N + n))

/-- The operations are exact on a matmul with `t` blocks: zero, sum and
product are those of `F`, and no stored partial sum is rounded. -/
structure ExactMatmul (F : Type) [Fp32 F] [Semiring F] (A B : Nat → UInt16)
    (M K N t : Nat) : Prop where
  zero : (Fp32.zero : F) = 0
  add : ∀ x y : F, Fp32.add x y = x + y
  mul : ∀ x y : F, Fp32.mul x y = x * y
  round : ∀ m < M, ∀ n < N, ∀ b < t, Fp32.fp16ToFp32 (Fp32.fp32ToFp16
      (productPrefix A B K N m n ((b + 1) * tileK) : F))
    = (productPrefix A B K N m n ((b + 1) * tileK) : F)

theorem dotProduct_eq_sum {a b : Nat → UInt16} {count : Nat}
    (hzero : (Fp32.zero : F) = 0) (hadd : ∀ x y : F, Fp32.add x y = x + y)
    (hmul : ∀ x y : F, Fp32.mul x y = x * y) :
    dotProduct F a b count
      = ∑ k ∈ Finset.range count, Fp32.fp16ToFp32 (a k) * Fp32.fp16ToFp32 (b k) := by
  induction count with
  | zero => exact hzero
  | succ count ih =>
      rw [Finset.sum_range_succ, ← ih, ← hmul, ← hadd]
      unfold Runtime.dotProduct
      rw [List.range_succ, List.foldl_append]
      rfl

/-- **Exact blocks add up to the full sum.** -/
theorem blockFold_exact {A B : Nat → UInt16} {M K N t m n b : Nat}
    (h : ExactMatmul F A B M K N t) (hm : m < M) (hn : n < N) (hb : b < t) :
    (Fp32.fp16ToFp32 (blockFold F A B K N m n b) : F)
      = productPrefix A B K N m n ((b + 1) * tileK) := by
  have hsum : ∀ b, blockSum F A B K N m n b
      = ∑ k ∈ Finset.range tileK, Fp32.fp16ToFp32 (A (m * K + (b * tileK + k)))
        * Fp32.fp16ToFp32 (B ((b * tileK + k) * N + n)) :=
    fun b => dotProduct_eq_sum h.zero h.add h.mul
  have hsplit : ∀ b, (productPrefix A B K N m n ((b + 1) * tileK) : F)
      = productPrefix A B K N m n (b * tileK) + blockSum F A B K N m n b := by
    intro b
    rw [hsum, productPrefix, Nat.add_mul, Nat.one_mul, Finset.sum_range_add]
    rfl
  induction b with
  | zero =>
      have h0 : blockSum F A B K N m n 0 = productPrefix A B K N m n ((0 + 1) * tileK) := by
        rw [hsplit 0, Nat.zero_mul, productPrefix, Finset.range_zero,
          Finset.sum_empty, zero_add]
      rw [blockFold, h0, h.round m hm n hn 0 hb]
  | succ b ih =>
      rw [blockFold, h.add, ih (by omega), add_comm, ← hsplit,
        h.round m hm n hn (b + 1) hb]

end Exact

/-! ## Geometry -/

/-- The tiles, tensors and descriptors of a matmul with `t` blocks: in
range, 16-byte aligned, the tiles apart from each other and the tensors
apart from the descriptors. -/
structure MatmulGeometry (a : MatmulAddrs) (M K N t : Nat) (desc : UInt32) :
    Prop where
  lhsTileIn : InSram a.lhsTile.toNat (M * tileK)
  rhsTileIn : InSram a.rhsTile.toNat (tileK * N)
  dstTileIn : InSram a.dstTile.toNat (M * N)
  lhsDst : ArraysApart a.lhsTile.toNat (M * tileK) a.dstTile.toNat (M * N)
  rhsDst : ArraysApart a.rhsTile.toNat (tileK * N) a.dstTile.toNat (M * N)
  lhsRhs : ArraysApart a.lhsTile.toNat (M * tileK) a.rhsTile.toNat (tileK * N)
  lhsIn : InDdr a.lhs.toNat (M * K)
  rhsIn : InDdr a.rhs.toNat (K * N)
  dstIn : InDdr a.dst.toNat (M * N)
  descIn : InDdr desc.toNat (0x20 * (3 * t + 1))
  lhsDesc : ArraysApart a.lhs.toNat (M * K) desc.toNat (0x20 * (3 * t + 1))
  rhsDesc : ArraysApart a.rhs.toNat (K * N) desc.toNat (0x20 * (3 * t + 1))
  dstDesc : ArraysApart a.dst.toNat (M * N) desc.toNat (0x20 * (3 * t + 1))
  lhsTileAlign : a.lhsTile.toNat % 16 = 0
  rhsTileAlign : a.rhsTile.toNat % 16 = 0
  dstTileAlign : a.dstTile.toNat % 16 = 0
  lhsAlign : a.lhs.toNat % 16 = 0
  rhsAlign : a.rhs.toNat % 16 = 0
  dstAlign : a.dst.toNat % 16 = 0

/-- `base + m * n` on register values. -/
theorem toNat_add_mul {x : UInt32} {m n : Nat}
    (h : x.toNat + m * n < 4294967296) :
    (x + UInt32.ofNat m * UInt32.ofNat n).toNat = x.toNat + m * n := by
  rw [← UInt32.ofNat_mul, UInt32.toNat_add, UInt32.toNat_ofNat',
    Nat.mod_eq_of_lt (a := m * n) (by omega), Nat.mod_eq_of_lt h]

/-! ## One block -/

section Run

variable {F : Type} [Fp32 F] {a : MatmulAddrs} {M K N t : Nat} {desc : UInt32}

/-- The columns of K block `b` are columns of A. -/
theorem block_le {b : Nat} (hK : K = t * tileK) (hb : b < t) :
    b * tileK + tileK ≤ K := by
  have := Nat.mul_le_mul_right tileK (show b + 1 ≤ t from hb)
  rw [Nat.add_mul, Nat.one_mul, ← hK] at this
  exact this

/-- The load of K block `b` of A. -/
theorem dmaLoad_blockLhs (g : MatmulGeometry a M K N t desc) (hM : 0 < M)
    (hK : K = t * tileK) {b : Nat} (hb : b < t) (u : CModel) :
    ∃ u', dmaLoad (blockLhs a M K b) u = .ok u'
      ∧ (∀ m < M, ∀ k < tileK, elemAt u' a.lhsTile.toNat (m * tileK + k)
          = ddrElem u a.lhs.toNat (m * K + (b * tileK + k)))
      ∧ AgreeOff u u' a.lhsTile.toNat (M * tileK) := by
  have hblk := block_le hK hb
  have hrowA : ∀ i < M, i * K + K ≤ M * K := fun i hi => by
    have := Nat.mul_le_mul_right K (show i + 1 ≤ M from hi)
    rwa [Nat.add_mul, Nat.one_mul] at this
  obtain ⟨hlo, hhi⟩ := g.lhsIn
  rw [ddrEnd_eq] at hhi
  have hMK : M ≤ M * K := Nat.le_mul_of_pos_right M (by unfold tileK at hblk; omega)
  have hrows : (blockLhs a M K b).rows.toNat = M := toNat_ofNat_small (by omega)
  have hcols : (blockLhs a M K b).cols.toNat = tileK := rfl
  have hbase : (blockLhs a M K b).ddrAddr.toNat = a.lhs.toNat + b * tileK * 2 := by
    have hfirst := hrowA 0 hM
    show (a.lhs + UInt32.ofNat 0 * UInt32.ofNat (K * 2)
      + UInt32.ofNat (b * tileK) * UInt32.ofNat (1 * 2)).toNat = _
    have h0 : (a.lhs + UInt32.ofNat 0 * UInt32.ofNat (K * 2)).toNat = a.lhs.toNat := by
      rw [toNat_add_mul (by omega)]; omega
    rw [toNat_add_mul (by omega), h0]
  have hsrc : ∀ i < M, ((blockLhs a M K b).loadSrc i).toNat
      = a.lhs.toNat + (i * K + b * tileK) * 2 := by
    intro i hi
    have hrow := hrowA i hi
    have hKi : K * 2 * i = i * K * 2 := by rw [Nat.mul_right_comm, Nat.mul_comm K]
    show ((blockLhs a M K b).ddrAddr + UInt32.ofNat (K * 2) * UInt32.ofNat i).toNat = _
    rw [toNat_add_mul (by omega), hbase]
    omega
  obtain ⟨u', hu', hval, hoff⟩ := dmaLoad_packed (p := blockLhs a M K b) (s := u)
    (fun i => a.lhs.toNat + (i * K + b * tileK) * 2)
    (by
      rw [Bool.and_eq_true]
      refine ⟨aligned_of_toNat g.lhsTileAlign, aligned_of_toNat ?_⟩
      have := g.lhsAlign
      rw [hbase]
      unfold tileK
      omega)
    (by rw [hcols]; decide) (by rw [hcols]; rfl)
    (by rw [hrows, hcols]; exact g.lhsTileIn)
    (fun i hi => by
      rw [hrows] at hi
      have hrow := hrowA i hi
      exact ⟨hsrc i hi, by omega, by rw [hcols, ddrEnd_eq]; omega⟩)
  rw [hrows, hcols] at hval hoff
  refine ⟨u', hu', fun m hm k hk => ?_, hoff⟩
  rw [show elemAt u' a.lhsTile.toNat (m * tileK + k) = _ from hval m hm k hk, ddrElem,
    ddrElem]
  congr 1
  omega

/-- The load of K block `b` of B. -/
theorem dmaLoad_blockRhs (g : MatmulGeometry a M K N t desc) (hN : 0 < N)
    (hK : K = t * tileK) {b : Nat} (hb : b < t) (u : CModel) :
    ∃ u', dmaLoad (blockRhs a N b) u = .ok u'
      ∧ (∀ k < tileK, ∀ n < N, elemAt u' a.rhsTile.toNat (k * N + n)
          = ddrElem u a.rhs.toNat ((b * tileK + k) * N + n))
      ∧ AgreeOff u u' a.rhsTile.toNat (tileK * N) := by
  have hblk := block_le hK hb
  -- row `k` of the block is row `16 * b + k` of B
  have hrowB : ∀ k < tileK, b * tileK * N + k * N + N ≤ K * N := fun k hk => by
    have := Nat.mul_le_mul_right N (show b * tileK + k + 1 ≤ K by omega)
    rwa [Nat.add_mul, Nat.add_mul, Nat.one_mul] at this
  obtain ⟨hlo, hhi⟩ := g.rhsIn
  rw [ddrEnd_eq] at hhi
  have hfirst := hrowB 0 (by decide)
  have hrows : (blockRhs a N b).rows.toNat = tileK := rfl
  have hcols : (blockRhs a N b).cols.toNat = N := toNat_ofNat_small (by omega)
  have hbase : (blockRhs a N b).ddrAddr.toNat = a.rhs.toNat + b * tileK * N * 2 := by
    show (a.rhs + UInt32.ofNat (b * tileK) * UInt32.ofNat (N * 2)
      + UInt32.ofNat 0 * UInt32.ofNat (1 * 2)).toNat = _
    have h0 : (a.rhs + UInt32.ofNat (b * tileK) * UInt32.ofNat (N * 2)).toNat
        = a.rhs.toNat + b * tileK * N * 2 := by
      rw [toNat_add_mul (by rw [← Nat.mul_assoc]; omega), Nat.mul_assoc _ N 2]
    rw [toNat_add_mul (by omega), h0]
    omega
  have hsrc : ∀ k < tileK, ((blockRhs a N b).loadSrc k).toNat
      = a.rhs.toNat + (b * tileK * N + k * N) * 2 := by
    intro k hk
    have hrow := hrowB k hk
    have hNk : N * 2 * k = k * N * 2 := by rw [Nat.mul_right_comm, Nat.mul_comm N]
    show ((blockRhs a N b).ddrAddr + UInt32.ofNat (N * 2) * UInt32.ofNat k).toNat = _
    rw [toNat_add_mul (by omega), hbase]
    omega
  obtain ⟨u', hu', hval, hoff⟩ := dmaLoad_packed (p := blockRhs a N b) (s := u)
    (fun k => a.rhs.toNat + (b * tileK * N + k * N) * 2)
    (by
      rw [Bool.and_eq_true]
      refine ⟨aligned_of_toNat g.rhsTileAlign, aligned_of_toNat ?_⟩
      have := g.rhsAlign
      have h16 : b * tileK * N = b * N * 16 := Nat.mul_right_comm b tileK N
      rw [hbase, h16]
      omega)
    (by rw [hcols]; exact hN)
    (by
      rw [hcols]
      exact toNat_ofNat_small (by omega))
    (by rw [hrows, hcols]; exact g.rhsTileIn)
    (fun k hk => by
      rw [hrows] at hk
      have hrow := hrowB k hk
      exact ⟨hsrc k hk, by omega, by rw [hcols, ddrEnd_eq]; omega⟩)
  rw [hrows, hcols] at hval hoff
  refine ⟨u', hu', fun k hk n hn => ?_, hoff⟩
  rw [show elemAt u' a.rhsTile.toNat (k * N + n) = _ from hval k hk n hn, ddrElem,
    ddrElem, Nat.add_mul (b * tileK)]
  congr 1
  omega

theorem blockFold_congr {A B A' B' : Nat → UInt16} {m n b : Nat}
    (hK : K = t * tileK) (hm : m < M) (hn : n < N) (hA : ∀ i < M * K, A i = A' i)
    (hB : ∀ i < K * N, B i = B' i) (hb : b < t) :
    blockFold F A B K N m n b = blockFold F A' B' K N m n b := by
  have hsum : ∀ b < t, blockSum F A B K N m n b = blockSum F A' B' K N m n b := by
    intro b hb
    have hblk := block_le hK hb
    exact dotProduct_congr (fun k hk => hA _ (flat_lt hm (by omega)))
      (fun k hk => hB _ (flat_lt (by omega) hn))
  induction b with
  | zero => rw [blockFold, blockFold, hsum 0 hb]
  | succ b ih => rw [blockFold, blockFold, hsum (b + 1) hb, ih (by omega)]

theorem ddr_of_agreeOff {s u : CModel} {base n : Nat} (h : AgreeOff s u base n)
    (x : Nat) : u (.ddr x) = s (.ddr x) := h _ nofun

theorem ddrElem_congr {s u : CModel} (h : ∀ x, u (.ddr x) = s (.ddr x))
    (base i : Nat) : ddrElem u base i = ddrElem s base i :=
  loadU16_congr (h _) (h _)

/-- **One block**: the five lines load the blocks of A and B and take every
element of the result tile one step further. -/
theorem runBlock (g : MatmulGeometry a M K N t desc) (hM : 0 < M) (hN : 0 < N)
    (hK : K = t * tileK) {b : Nat} (hb : b < t) {d : UInt32} {s u : CModel}
    (hddr : ∀ x, u (.ddr x) = s (.ddr x)) :
    ∃ u', runAll (runInsn F) (blockLines a M K N d b) u = .ok u'
      ∧ (∀ x, u' (.ddr x) = s (.ddr x))
      ∧ ∀ m < M, ∀ n < N, elemAt u' a.dstTile.toNat (m * N + n)
        = blockStep F (ddrElem s a.lhs.toNat) (ddrElem s a.rhs.toNat) K N m n b
          (elemAt u a.dstTile.toNat (m * N + n)) := by
  obtain ⟨u₁, hu₁, hlhs, hoff₁⟩ := dmaLoad_blockLhs g hM hK hb u
  obtain ⟨u₂, hu₂, hrhs, hoff₂⟩ := dmaLoad_blockRhs g hN hK hb u₁
  have hMd : (blockMatmul a M N b).M.toNat = M := by
    refine toNat_ofNat_small ?_
    have h1 := g.dstTileIn.2
    have h2 : M ≤ M * N := Nat.le_mul_of_pos_right M hN
    rw [sramEnd_eq] at h1
    omega
  have hNd : (blockMatmul a M N b).N.toNat = N := by
    refine toNat_ofNat_small ?_
    have h1 := g.dstTileIn.2
    have h2 : N ≤ M * N := Nat.le_mul_of_pos_left N hM
    rw [sramEnd_eq] at h1
    omega
  have hKd : (blockMatmul a M N b).K.toNat = tileK := rfl
  have hpacked : (blockMatmul a M N b).Packed := by
    constructor
    · rfl
    · rfl
    · rw [hMd, hNd]; exact g.dstTileIn
    · rw [hMd, hKd]; exact g.lhsTileIn
    · rw [hKd, hNd]; exact g.rhsTileIn
    · rw [hMd, hKd, hNd]; exact g.lhsDst
    · rw [hKd, hNd, hMd]; exact g.rhsDst
    · rw [hMd, hKd, hNd]; exact g.lhsRhs
  obtain ⟨u₃, hu₃, hval, hoff₃⟩ := matmul_packed (F := F) (s := u₂) hpacked
  rw [hMd, hNd] at hval hoff₃
  have hddr₁ : ∀ x, u₁ (.ddr x) = s (.ddr x) := fun x =>
    (ddr_of_agreeOff hoff₁ x).trans (hddr x)
  have hddr₂ : ∀ x, u₂ (.ddr x) = s (.ddr x) := fun x =>
    (ddr_of_agreeOff hoff₂ x).trans (hddr₁ x)
  refine ⟨u₃, ?_, fun x => (ddr_of_agreeOff hoff₃ x).trans (hddr₂ x), ?_⟩
  · show dmaLoad _ u >>= runAll (runInsn F) _ = _
    rw [hu₁, ok_bind]
    show dmaLoad _ u₁ >>= runAll (runInsn F) _ = _
    rw [hu₂, ok_bind]
    show matmul F _ u₂ >>= runAll (runInsn F) _ = _
    rw [hu₃, ok_bind]
    rfl
  · intro m hm n hn
    have hflat := flat_lt hm hn
    -- the loads leave the result tile alone
    have hold : elemAt u₂ a.dstTile.toNat (m * N + n)
        = elemAt u a.dstTile.toNat (m * N + n) := by
      rw [hoff₂.elemAt_apart (Nat.le_refl _) g.rhsDst.symm hflat,
        hoff₁.elemAt_apart (Nat.le_refl _) g.lhsDst.symm hflat]
    have ha : ∀ k < tileK, elemAt u₂ a.lhsTile.toNat (m * tileK + k)
        = ddrElem s a.lhs.toNat (m * K + (b * tileK + k)) := fun k hk => by
      rw [hoff₂.elemAt_apart (Nat.le_refl _) g.lhsRhs (flat_lt hm hk),
        hlhs m hm k hk, ddrElem_congr hddr]
    have hb' : ∀ k < tileK, elemAt u₂ a.rhsTile.toNat (k * N + n)
        = ddrElem s a.rhs.toNat ((b * tileK + k) * N + n) := fun k hk => by
      rw [hrhs k hk n hn, ddrElem_congr hddr₁]
    have hdot := dotProduct_congr (F := F) ha hb'
    rw [show elemAt u₃ a.dstTile.toNat (m * N + n) = _ from hval m hm n hn]
    simp only [matmulValue, hKd, hNd]
    rw [blockStep, blockSum, ← hdot, ← hold]
    congr 1
    by_cases h0 : b = 0
    · rw [if_pos h0, if_neg (by simp [blockMatmul, h0])]
      rfl
    · rw [if_neg h0, if_pos (by simp [blockMatmul, h0])]
      rfl

/-- **The run over the blocks**: after block `t - 1` the result tile holds
the fold. -/
theorem runBlocks (g : MatmulGeometry a M K N t desc) (hM : 0 < M) (hN : 0 < N)
    (hK : K = t * tileK) (ht : 0 < t) (d : UInt32) (s : CModel) :
    ∃ u, runAll (runInsn F) ((List.range t).flatMap (blockLines a M K N d)) s = .ok u
      ∧ ∀ m < M, ∀ n < N, elemAt u a.dstTile.toNat (m * N + n)
        = blockFold F (ddrElem s a.lhs.toNat) (ddrElem s a.rhs.toNat) K N m n
          (t - 1) := by
  rw [runAll_flatMap_range]
  obtain ⟨u, hu, -, hval⟩ := forLoop_spec (n := t)
    (f := fun b => runAll (runInsn F) (blockLines a M K N d b)) (s := s)
    (fun b u => (∀ x, u (.ddr x) = s (.ddr x))
      ∧ ∀ b', b = b' + 1 → ∀ m < M, ∀ n < N, elemAt u a.dstTile.toNat (m * N + n)
        = blockFold F (ddrElem s a.lhs.toNat) (ddrElem s a.rhs.toNat) K N m n b')
    ⟨fun _ => rfl, nofun⟩
    (fun b hb u ⟨hddr, hfold⟩ => by
      obtain ⟨u', hu', hddr', hval⟩ := runBlock (F := F) g hM hN hK hb (d := d) hddr
      refine ⟨u', hu', hddr', ?_⟩
      rintro b' hb' m hm n hn
      obtain rfl : b = b' := by omega
      rw [hval m hm n hn]
      cases b with
      | zero => rfl
      | succ b => rw [hfold b rfl m hm n hn, blockStep_fold])
  exact ⟨u, hu, fun m hm n hn => hval (t - 1) (by omega) m hm n hn⟩

/-! ## The whole stream -/

theorem described_matmulLines (a : MatmulAddrs) (M K N t : Nat) (d : UInt32) :
    (described (matmulLines a M K N d t)).length = 3 * t + 1 := by
  have hblocks : (described ((List.range t).flatMap (blockLines a M K N d))).length
      = 3 * t := by
    induction t with
    | zero => rfl
    | succ t ih =>
        rw [List.range_succ, List.flatMap_append, described, List.filter_append,
          List.length_append]
        change (described _).length + 3 = _
        rw [ih]
        omega
  rw [matmulLines, described, List.filter_append, List.length_append]
  change (described _).length + 1 = _
  rw [hblocks]

/-- The store of the result: `C` becomes the result tile. -/
theorem dmaStore_dst (g : MatmulGeometry a M K N t desc) (hM : 0 < M)
    (hN : 0 < N) (u : CModel) :
    (∃ u', dmaStore (wholeTransfer a.dstTile a.dst M N) u = .ok u'
      ∧ ∀ m < M, ∀ n < N, ddrElem u' a.dst.toNat (m * N + n)
        = elemAt u a.dstTile.toNat (m * N + n))
      ∧ ∀ d x, Loc.ddr x ∈ EasmInsn.writes
          (.dmaStore d (wholeTransfer a.dstTile a.dst M N)) →
        a.dst.toNat ≤ x ∧ x < a.dst.toNat + M * N * 2 := by
  have hw : WholeBuffers a.dstTile a.dst M N :=
    ⟨hM, hN, g.dstTileIn, g.dstIn, g.dstTileAlign, g.dstAlign⟩
  obtain ⟨u', hu', hval⟩ := dmaStore_whole hw u
  exact ⟨⟨u', hu', fun m hm n hn => hval _ (flat_lt hm hn)⟩,
    fun d x hx => writes_whole hw hx⟩

/-- The run of the stream emitted for a lowered matmul. -/
theorem run_matmul {layout : Layout} {p : Nat} {lhs rhs dst : Value}
    (hs : MatmulShapes lhs rhs dst M K N) (hM : 0 < M) (hN : 0 < N)
    (hK : K = t * tileK) (ht : 0 < t)
    (hp : MatmulPlacement layout p lhs rhs dst a)
    (g : MatmulGeometry a M K N t desc) (s : CModel) :
    ∃ s', runEasm F (matmulLines a M K N desc (K / tileK)) s = .ok s'
      ∧ ∀ m < M, ∀ n < N, ddrElem s' a.dst.toNat (m * N + n)
        = blockFold F (ddrElem s a.lhs.toNat) (ddrElem s a.rhs.toNat) K N m n
          (t - 1) := by
  have hdiv : K / tileK = t := by rw [hK]; exact Nat.mul_div_cancel t (by decide)
  have hemit := emitInsts_lowerMatmul hp hs (by omega) desc
  rw [hdiv] at hemit ⊢
  have hlen := described_matmulLines a M K N t desc
  obtain ⟨s₁, hs₁, hrun⟩ := runEasm_emitted (F := F) hemit g.descIn.1
    (by have := g.descIn.2; rw [hlen]; omega)
    (fun x hx y hy => by
      rw [hlen]
      rcases List.mem_append.mp hx with hx | hx
      · exfalso
        obtain ⟨b, -, hx⟩ := List.mem_flatMap.mp hx
        have hns : ∀ d p, x ≠ .dmaStore d p := by
          rintro d p rfl
          simp [blockLines] at hx
        exact not_writes_ddr hns y hy
      · rw [List.mem_singleton] at hx
        subst hx
        have h1 := (dmaStore_dst g hM hN s).2 _ y hy
        have h2 := g.dstDesc
        unfold ArraysApart at h2
        omega) s
  simp only [hlen] at hs₁
  -- the tensors are not touched by the descriptors
  have htensor : ∀ {base n : Nat}, ArraysApart base n desc.toNat (0x20 * (3 * t + 1)) →
      ∀ i < n, ddrElem s₁ base i = ddrElem s base i := by
    intro base n hap i hi
    unfold ArraysApart at hap
    refine loadU16_congr (hs₁ _ ?_) (hs₁ _ ?_)
    · rintro x ⟨⟩
      omega
    · rintro x ⟨⟩
      omega
  obtain ⟨u, hu, hfold⟩ := runBlocks (F := F) g hM hN hK ht desc s₁
  obtain ⟨⟨s', hs', hstore⟩, -⟩ := dmaStore_dst g hM hN u
  refine ⟨s', ?_, ?_⟩
  · rw [hrun, matmulLines, runAll_append, hu, ok_bind]
    show dmaStore _ u >>= runAll (runInsn F) [] = _
    rw [hs']
    rfl
  · intro m hm n hn
    rw [hstore m hm n hn, hfold m hm n hn]
    exact blockFold_congr hK hm hn (htensor g.lhsDesc) (htensor g.rhsDesc) (by omega)

/-- **Tile-K matmul is correct end to end**: the stream emitted for a lowered
matmul runs without a fault and leaves in `C[m, n]` the block-wise fold of
row `m` of A and column `n` of B; with exact operations that is the full
sum over `k < K`. -/
theorem matmul_endToEnd {layout : Layout} {p : Nat} {lhs rhs dst : Value}
    (hs : MatmulShapes lhs rhs dst M K N) (hM : 0 < M) (hN : 0 < N)
    (hK : K = t * tileK) (ht : 0 < t)
    (hp : MatmulPlacement layout p lhs rhs dst a)
    (g : MatmulGeometry a M K N t desc) (s : CModel) :
    ∃ xs next s',
      emitInsts layout desc (unrollBody (lowerMatmul p lhs rhs dst))
        = some (xs, next)
      ∧ runEasm F xs s = .ok s'
      ∧ (∀ m < M, ∀ n < N, ddrElem s' a.dst.toNat (m * N + n)
        = blockFold F (ddrElem s a.lhs.toNat) (ddrElem s a.rhs.toNat) K N m n
          (t - 1))
      ∧ ∀ [Semiring F], ExactMatmul F (ddrElem s a.lhs.toNat)
          (ddrElem s a.rhs.toNat) M K N t →
        ∀ m < M, ∀ n < N,
          (Fp32.fp16ToFp32 (ddrElem s' a.dst.toNat (m * N + n)) : F)
            = ∑ k ∈ Finset.range K,
              Fp32.fp16ToFp32 (ddrElem s a.lhs.toNat (m * K + k))
              * Fp32.fp16ToFp32 (ddrElem s a.rhs.toNat (k * N + n)) := by
  have htiles : 0 < K / tileK := by
    rw [hK, Nat.mul_div_cancel t (by decide)]
    exact ht
  obtain ⟨s', hrun, hC⟩ := run_matmul (F := F) hs hM hN hK ht hp g s
  refine ⟨_, _, s', emitInsts_lowerMatmul hp hs htiles desc, hrun, hC, ?_⟩
  intro _ hexact m hm n hn
  rw [hC m hm n hn, blockFold_exact hexact hm hn (by omega), productPrefix,
    Nat.sub_add_cancel ht, ← hK]

end Run

/-! ### A 2x32 matrix times a 32x2 one -/

def smallLhs : Value := .blockArg 0 0 (f16Type 2 32)
def smallRhs : Value := .blockArg 0 1 (f16Type 32 2)
def smallDst : Value := .alloc ⟨0, .user 0⟩ (f16Type 2 2) (some 64)

def smallAddrs : MatmulAddrs :=
  { lhsTile := 0x10000000, rhsTile := 0x10000100, dstTile := 0x10000200
    lhs := 0x40010000, rhs := 0x40020000, dst := 0x40030000 }

def smallLayout : Layout :=
  [(lhsTile 0 smallLhs, .sram 0x10000000), (rhsTile 0 smallRhs, .sram 0x10000100),
    (dstTile 0 smallLhs smallRhs smallDst, .sram 0x10000200),
    (smallLhs, .ddr 0x40010000), (smallRhs, .ddr 0x40020000),
    (smallDst, .ddr 0x40030000)]

/-- `A[m, k] = m + k % 3` and `B[k, n] = 2 * n + k % 2`. -/
def smallState : CModel :=
  CModel.storeDdr
    (CModel.storeDdr (fun _ => 0) 0x40010000
      (integerBytes ((List.range 64).map fun i => (i / 32 + i % 32 % 3 : Nat))))
    0x40020000 (integerBytes ((List.range 64).map fun i => (2 * (i % 2) + i / 2 % 2 : Nat)))

theorem matmul_endToEnd_small : ∃ xs next s',
    emitInsts smallLayout DESC_STARTADDR
        (unrollBody (lowerMatmul 0 smallLhs smallRhs smallDst)) = some (xs, next)
      ∧ @runEasm Int Fp32.integers xs smallState = .ok s'
      ∧ ∀ m < 2, ∀ n < 2, fp16ToInt (ddrElem s' 0x40030000 (m * 2 + n))
        = ∑ k ∈ Finset.range 32, (m + k % 3 : Int) * (2 * n + k % 2) := by
  have hp : MatmulPlacement smallLayout 0 smallLhs smallRhs smallDst smallAddrs := by
    constructor <;> rfl
  have g : MatmulGeometry smallAddrs 2 32 2 2 DESC_STARTADDR := by
    constructor <;> decide
  have hexact : @ExactMatmul Int Fp32.integers _ (ddrElem smallState 0x40010000)
      (ddrElem smallState 0x40020000) 2 32 2 2 :=
    @ExactMatmul.mk Int Fp32.integers _ _ _ _ _ _ _ rfl (fun _ _ => rfl)
      (fun _ _ => rfl) (by decide +kernel)
  obtain ⟨xs, next, s', hemit, hrun, -, hsum⟩ := @matmul_endToEnd Int Fp32.integers
    smallAddrs 2 32 2 2 DESC_STARTADDR smallLayout 0 smallLhs smallRhs smallDst
    ⟨rfl, rfl, rfl⟩ (by decide) (by decide) rfl (by decide) hp g smallState
  refine ⟨xs, next, s', hemit, hrun, fun m hm n hn => ?_⟩
  rw [show (0x40030000 : Nat) = smallAddrs.dst.toNat from rfl]
  refine (hsum hexact m hm n hn).trans ?_
  revert m n
  decide +kernel

end EclipseNpu.Compiler

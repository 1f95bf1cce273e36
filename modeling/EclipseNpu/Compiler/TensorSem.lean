import EclipseNpu.Compiler.ElideSound
import EclipseNpu.Compiler.MachineOps

/-!
# Compiler — TensorSem

What the lowered operations of a function mean: each leaves a tensor in its
destination buffer, with the arithmetic of the simulator. The sequences they expand to
preserve that meaning: each leaves the same tensor there, through its tiles, block by
block for a matmul (`run_items`). Which operation a linalg operation is lowered to, and
whether it means the same, is not a matter of this module.
-/

namespace EclipseNpu.Compiler

open EclipseNpu.Runtime

/-! ## Meaning -/

section Meaning

variable (F : Type) [Fp32 F]

/-- The buffer an operation fills. -/
def Lowering.dest : Lowering → Value
  | .matmul _ _ dst | .ewise _ _ _ dst | .act _ _ dst | .reduce _ _ dst _ => dst

/-- **The tensor a lowered operation leaves**, from what the buffers hold. -/
def Lowering.value (ddr : Value → Contents) : Lowering → Contents
  | .matmul lhs rhs _ => wordsOf (matmulM lhs * matmulN rhs) fun i =>
      blockFold F (fun k => (ddr lhs).getD k 0) (fun k => (ddr rhs).getD k 0) (matmulK lhs)
        (matmulN rhs) (i / matmulN rhs) (i % matmulN rhs) (matmulK lhs / tileK - 1)
  | .ewise kind big small out => wordsOf out.type.numElements
      (ewiseWord F kind (out.type.extent 1) (small.type.extent 0) (small.type.extent 1)
        (ddr big) (ddr small))
  | .act kind src dst => wordsOf dst.type.numElements (actWord F kind (ddr src))
  | .reduce kind src dst _ => wordsOf dst.type.numElements fun r =>
      Fp32.fp32ToFp16 (reduceRowOf F kind (src.type.extent 1) (ddr src) r).value

def Item.meaning (ddr : Value → Contents) : Item Lowering → Value → Contents
  | .op l => fun v => if v = l.dest then l.value F ddr else ddr v
  | _ => ddr

/-- **The meaning of the lowered operations** of a body, one after another: what its
buffers hold in the end. -/
def meaning (items : List (Item Lowering)) (ddr : Value → Contents) : Value → Contents :=
  items.foldl (fun ddr item => item.meaning F ddr) ddr

end Meaning

/-! ## Matmul -/

section Matmul

variable {F : Type} [Fp32 F] {p : Nat} {lhs rhs dst : Value} {s : BodyState}

/-- Iteration `b` of the loop is K block `b`. -/
theorem block_atIteration (hl : ∀ n, lhs.atIteration n = lhs)
    (hr : ∀ n, rhs.atIteration n = rhs) (b : Nat) (sub load fence : Nat → Pos) (mac : Pos) :
    (matmulBlock p lhs rhs dst (.ivTimes tileK) true sub load fence mac).map
        (fun inst => { inst with op := inst.op.atIteration b })
      = matmulBlock p lhs rhs dst (.const (b * tileK)) true sub load fence mac := by
  simp [matmulBlock, Op.atIteration, Op.mapOperands, Value.atIteration, subLhs, subRhs, toDDR,
    lhsTile, rhsTile, dstTile, tileIn, tileOut, hl b, hr b]

/-- The definitions before the first block. -/
def matmulDefs (p : Nat) (lhs rhs dst : Value) : List Inst :=
  [⟨⟨p, .castIn 0⟩, .define (toDDR ⟨p, .castIn 0⟩ lhs)⟩,
    ⟨⟨p, .castIn 1⟩, .define (toDDR ⟨p, .castIn 1⟩ rhs)⟩,
    ⟨⟨p, .castOut⟩, .define (toDDR ⟨p, .castOut⟩ dst)⟩,
    ⟨⟨p, .tileIn 0⟩, .define (lhsTile p lhs)⟩,
    ⟨⟨p, .tileIn 1⟩, .define (rhsTile p rhs)⟩,
    ⟨⟨p, .tileOut⟩, .define (dstTile p lhs rhs dst)⟩]

/-- The deallocations after the store. -/
def matmulFrees (p : Nat) (lhs rhs dst : Value) : List Inst :=
  [⟨⟨p, .freeOut⟩, .dealloc (dstTile p lhs rhs dst)⟩,
    ⟨⟨p, .free 1⟩, .dealloc (rhsTile p rhs)⟩,
    ⟨⟨p, .free 0⟩, .dealloc (lhsTile p lhs)⟩]

/-- **A lowered matmul, unrolled**: a block for every 16 columns of K. -/
theorem unroll_matmul (hl : ∀ n, lhs.atIteration n = lhs)
    (hr : ∀ n, rhs.atIteration n = rhs) {n : Nat} (hn : matmulK lhs / tileK = n + 1) :
    unrollBody (lowerMatmul p lhs rhs dst)
      = matmulDefs p lhs rhs dst
        ++ ((List.range (n + 1)).flatMap (unrolledBlock p lhs rhs dst)
          ++ (storeInst p (.matmul lhs rhs dst) :: matmulFrees p lhs rhs dst)) := by
  have hloop : ∀ id : OpId, unrollBody (if 1 < n + 1 then [.scfFor id 1 (n + 1) 1
        (matmulBlock p lhs rhs dst (.ivTimes tileK) true .loopSubIn .loopLoad .loopFence
          .loopCompute)] else [])
      = (List.range n).flatMap fun b => unrolledBlock p lhs rhs dst (b + 1) := by
    intro id
    have hiter : Stmt.iterations 1 (n + 1) 1 = (List.range n).map (· + 1) := by
      rw [Stmt.iterations, show (n + 1 - 1 + (1 - 1)) / 1 = n by omega]
      exact List.map_congr_left fun j _ => by omega
    by_cases hzero : n = 0
    · subst hzero
      rfl
    · rw [if_pos (by omega), unrollBody, List.flatMap_singleton, Stmt.unroll, hiter,
        List.flatMap_map]
      exact List.flatMap_congr fun b _ => block_atIteration hl hr (b + 1) _ _ _ _
  rw [lowerMatmul, hn, List.range_succ_eq_map, List.flatMap_cons, List.flatMap_map]
  simp only [unrollBody_append, unrollBody_insts, hloop, List.append_assoc]
  rfl

theorem wordsOf_congr {n : Nat} {f g : Nat → UInt16} (h : ∀ i < n, f i = g i) :
    wordsOf n f = wordsOf n g :=
  List.map_congr_left fun i hi => h i (List.mem_range.mp hi)

theorem isBuffer_source {v : Value} (h : v.isBuffer = true) :
    v.isWhole = true ∧ v.root = v := by
  obtain ⟨hroot, -, hwhole⟩ := isBuffer_cases h
  exact ⟨hwhole, hroot⟩

/-- The three steps of a block. -/
theorem run_matmulBlock (ops : TileOps) (off : IndexValue) (accumulate : Bool)
    (sub load fence : Nat → Pos) (mac : Pos) :
    run ops (matmulBlock p lhs rhs dst off accumulate sub load fence mac) s
      = (Op.matmul (lhsTile p lhs) (rhsTile p rhs) (dstTile p lhs rhs dst) accumulate false
          false).step ops ((s.setTile (lhsTile p lhs)
            (readView s.ddr (subLhs p (sub 0) lhs off))).setTile (rhsTile p rhs)
            (readView s.ddr (subRhs p (sub 1) rhs off))) := rfl

section Blocks

variable {M K N b : Nat}

/-- **One block** takes every element of the result tile one step further. -/
theorem run_block (hl : lhs.isBuffer = true) (hr : rhs.isBuffer = true)
    (hlhs : F16Shape lhs M K) (hrhs : F16Shape rhs K N) (sub load fence : Nat → Pos)
    (mac : Pos) :
    (run (machineOps F) (matmulBlock p lhs rhs dst (.const (b * tileK)) (decide (b ≠ 0)) sub
        load fence mac) s).ddr = s.ddr
      ∧ (run (machineOps F) (matmulBlock p lhs rhs dst (.const (b * tileK)) (decide (b ≠ 0))
        sub load fence mac) s).sram (dstTile p lhs rhs dst)
      = wordsOf (M * N) fun i => blockStep F (fun k => (s.ddr lhs).getD k 0)
        (fun k => (s.ddr rhs).getD k 0) K N (i / N) (i % N) b
        ((s.sram (dstTile p lhs rhs dst)).getD i 0) := by
  obtain ⟨hlwhole, hlroot⟩ := isBuffer_source hl
  obtain ⟨hrwhole, hrroot⟩ := isBuffer_source hr
  have hM : matmulM lhs = M := hlhs.extents.1
  have hN : matmulN rhs = N := hrhs.extents.2
  rw [run_matmulBlock]
  refine ⟨rfl, (BodyState.setTile_self _ _ _).trans ?_⟩
  have hlr : lhsTile p lhs ≠ rhsTile p rhs := by simp [lhsTile, rhsTile, tileIn]
  have hld : dstTile p lhs rhs dst ≠ lhsTile p lhs := by
    simp [lhsTile, dstTile, tileIn, tileOut]
  have hrd : dstTile p lhs rhs dst ≠ rhsTile p rhs := by
    simp [rhsTile, dstTile, tileIn, tileOut]
  rw [BodyState.setTile_self, BodyState.setTile_ne _ _ hlr, BodyState.setTile_self,
    BodyState.setTile_ne _ _ hrd, BodyState.setTile_ne _ _ hld, machineOps]
  dsimp only
  have hnum : (dstTile p lhs rhs dst).type.numElements = M * N := by
    show [matmulM lhs, matmulN rhs].prod = M * N
    rw [hM, hN, List.prod_cons, List.prod_singleton]
  have hdims : (dstTile p lhs rhs dst).type.extent 0 = M
      ∧ (lhsTile p lhs).type.extent 1 = tileK ∧ (rhsTile p rhs).type.extent 1 = N :=
    ⟨hM, rfl, hN⟩
  obtain ⟨hd0, hl1, hr1⟩ := hdims
  rw [hnum, hd0, if_neg Bool.false_ne_true, if_neg Bool.false_ne_true, hl1, hr1]
  refine wordsOf_congr fun i hi => ?_
  obtain ⟨hrow, hcol, -⟩ := flat_split hi
  have hsum : dotProduct F
        (fun k => (readView s.ddr (subLhs p (sub 0) lhs (.const (b * tileK)))).getD
          (i / N * tileK + k) 0)
        (fun k => (readView s.ddr (subRhs p (sub 1) rhs (.const (b * tileK)))).getD
          (k * N + i % N) 0) tileK
      = blockSum F (fun k => (s.ddr lhs).getD k 0) (fun k => (s.ddr rhs).getD k 0) K N
        (i / N) (i % N) b := by
    refine dotProduct_congr (fun k hk => ?_) fun k hk => ?_
    · rw [subLhs, hM, readView_block hlwhole hlroot hlhs s (flat_lt hrow hk), flat_div hk,
        flat_mod hk, Nat.zero_add]
    · rw [subRhs, hN, readView_block hrwhole hrroot hrhs s (flat_lt hk hcol), flat_div hcol,
        flat_mod hcol, Nat.zero_add]
  simp only [matmulWord, Bool.false_eq_true, if_false]
  rw [hsum, blockStep]
  by_cases hb : b = 0
  · rw [if_pos hb, if_neg (by simp [hb])]
  · rw [if_neg hb, if_pos (by simp [hb])]

/-- **The blocks so far**: the result tile holds the block-wise fold. -/
theorem run_blocks (hl : lhs.isBuffer = true) (hr : rhs.isBuffer = true)
    (hlhs : F16Shape lhs M K) (hrhs : F16Shape rhs K N) (n : Nat) :
    (run (machineOps F) ((List.range (n + 1)).flatMap (unrolledBlock p lhs rhs dst)) s).ddr
        = s.ddr
      ∧ (run (machineOps F) ((List.range (n + 1)).flatMap (unrolledBlock p lhs rhs dst))
        s).sram (dstTile p lhs rhs dst)
      = wordsOf (M * N) fun i => blockFold F (fun k => (s.ddr lhs).getD k 0)
        (fun k => (s.ddr rhs).getD k 0) K N (i / N) (i % N) n := by
  induction n with
  | zero =>
      rw [List.range_one, List.flatMap_singleton]
      obtain ⟨hddr, hsram⟩ := @run_block F _ p lhs rhs dst s M K N 0 hl hr hlhs hrhs .subIn .load .fence .compute
      exact ⟨hddr, hsram⟩
  | succ n ih =>
      obtain ⟨hddr, hsram⟩ := ih
      rw [List.range_succ, List.flatMap_append, List.flatMap_singleton, run_append]
      obtain ⟨hddr', hsram'⟩ := @run_block F _ p lhs rhs dst
        (run (machineOps F) ((List.range (n + 1)).flatMap (unrolledBlock p lhs rhs dst)) s)
        M K N (n + 1) hl hr hlhs hrhs .loopSubIn .loopLoad .loopFence .loopCompute
      refine ⟨hddr'.trans hddr, hsram'.trans ?_⟩
      rw [hddr, hsram]
      refine wordsOf_congr fun i hi => ?_
      rw [getD_wordsOf _ hi, blockStep_fold]

end Blocks

end Matmul

/-! ## Operations -/

section Operations

variable {F : Type} [Fp32 F] {items : List (Item Lowering)} {p : Nat} {l : Lowering}
  {s : BodyState}

/-- What a store of the whole destination leaves. -/
theorem store_dest {v w t : Value} {id : OpId} {c : Contents} (hwhole : v.isWhole = true)
    (hroot : v.root = w) (ht : s.sram t = c) :
    ((Op.dmaStore t (toDDR id v)).step (machineOps F) s).ddr
      = fun x => if x = w then c else s.ddr x := by
  show (s.setBuffer (toDDR id v).root (writeView s.ddr (s.sram t) (toDDR id v))).ddr = _
  rw [writeView_whole (show (toDDR id v).isWhole = true from hwhole),
    show (toDDR id v).root = w from hroot, ht]
  rfl

/-- A whole buffer is loaded as it is. -/
theorem readView_buffer {v : Value} (h : v.isBuffer = true) (ddr : Value → Contents)
    (id : OpId) : readView ddr (toDDR id v) = ddr v := by
  obtain ⟨hwhole, hroot⟩ := isBuffer_source h
  rw [readView_whole (show (toDDR id v).isWhole = true from hwhole)]
  exact congrArg ddr hroot

/-- **An operation leaves its tensor**: the sequence it becomes, run from any tiles. -/
theorem run_lowering (hv : l.verify = true) (hbuf : ∀ v ∈ l.operands, v.isBuffer = true) :
    (run (machineOps F) (unrollBody (l.expand p)) s).ddr = (Item.op l).meaning F s.ddr := by
  cases l with
  | matmul lhs rhs dst =>
      have hl : lhs.isBuffer = true := hbuf lhs (by simp [Lowering.operands])
      have hr : rhs.isBuffer = true := hbuf rhs (by simp [Lowering.operands])
      have hd : dst.isBuffer = true := hbuf dst (by simp [Lowering.operands])
      simp only [Lowering.verify, Bool.and_eq_true, decide_eq_true_eq, isF16] at hv
      obtain ⟨⟨⟨⟨hls, hlb⟩, hrs, hrb⟩, -⟩, hpos, hdvd⟩ := hv
      obtain ⟨n, hn⟩ : ∃ n, matmulK lhs / tileK = n + 1 :=
        ⟨matmulK lhs / tileK - 1, by unfold tileK at hdvd ⊢; omega⟩
      obtain ⟨hddr, hsram⟩ := @run_blocks F _ p lhs rhs dst s _ _ _ hl hr
        ⟨hls, hlb⟩ ⟨hrs, hrb⟩ n
      show (run (machineOps F) (unrollBody (lowerMatmul p lhs rhs dst)) s).ddr = _
      rw [unroll_matmul (atIteration_buffer hl) (atIteration_buffer hr) hn, run_append,
        run_append]
      obtain ⟨hwhole, hroot⟩ := isBuffer_source hd
      refine (store_dest (F := F) hwhole hroot hsram).trans ?_
      rw [hddr, Item.meaning, Lowering.value, Lowering.dest, hn, Nat.add_sub_cancel]
  | ewise kind big small out =>
      obtain ⟨hwhole, hroot⟩ := isBuffer_source (hbuf out (by simp [Lowering.operands]))
      have hb := readView_buffer (hbuf big (by simp [Lowering.operands])) s.ddr
        ⟨p, .castIn 0⟩
      have hs := readView_buffer (hbuf small (by simp [Lowering.operands])) s.ddr
        ⟨p, .castIn 1⟩
      have hne : tileIn p 0 (sramTypeOf big) ≠ tileIn p 1 (sramTypeOf small) := by
        simp [tileIn]
      show ((Op.dmaStore (tileOut p (sramTypeOf out)) (toDDR ⟨p, .castOut⟩ out)).step
        (machineOps F) ((Op.ewise kind (tileIn p 0 (sramTypeOf big))
          (tileIn p 1 (sramTypeOf small)) (tileOut p (sramTypeOf out))).step (machineOps F)
          ((s.setTile (tileIn p 0 (sramTypeOf big))
            (readView s.ddr (toDDR ⟨p, .castIn 0⟩ big))).setTile (tileIn p 1 (sramTypeOf small))
            (readView s.ddr (toDDR ⟨p, .castIn 1⟩ small))))).ddr
        = _
      refine (store_dest (F := F) hwhole hroot (BodyState.setTile_self _ _ _)).trans ?_
      rw [BodyState.setTile_self, BodyState.setTile_ne _ _ hne, BodyState.setTile_self, hb, hs]
      rfl
  | act kind src dst =>
      obtain ⟨hwhole, hroot⟩ := isBuffer_source (hbuf dst (by simp [Lowering.operands]))
      have hs := readView_buffer (hbuf src (by simp [Lowering.operands])) s.ddr
        ⟨p, .castIn 0⟩
      show ((Op.dmaStore (tileOut p (sramTypeOf dst)) (toDDR ⟨p, .castOut⟩ dst)).step
        (machineOps F) ((Op.act kind (tileIn p 0 (sramTypeOf dst))
          (tileOut p (sramTypeOf dst))).step (machineOps F)
          (s.setTile (tileIn p 0 (sramTypeOf dst))
            (readView s.ddr (toDDR ⟨p, .castIn 0⟩ src))))).ddr = _
      refine (store_dest (F := F) hwhole hroot (BodyState.setTile_self _ _ _)).trans ?_
      rw [BodyState.setTile_self, hs]
      rfl
  | reduce kind src dst reshape =>
      obtain ⟨hwhole, hroot⟩ := isBuffer_source (hbuf dst (by simp [Lowering.operands]))
      have hs := readView_buffer (hbuf src (by simp [Lowering.operands])) s.ddr
        ⟨p, .castIn 0⟩
      have hreduce : ∀ out : Value, out.isWhole = true → out.root = dst →
          out.type.numElements = dst.type.numElements →
          (run (machineOps F) (unrollBody (lowerReduce p kind src out)) s).ddr
            = (Item.op (.reduce kind src dst reshape)).meaning F s.ddr := by
        intro out hwhole hroot hnum
        show ((Op.dmaStore (tileOut p (sramTypeOf out)) (toDDR ⟨p, .castOut⟩ out)).step
          (machineOps F) ((Op.reduce kind (tileIn p 0 (sramTypeOf src))
            (tileOut p (sramTypeOf out)) none).step (machineOps F)
            (s.setTile (tileIn p 0 (sramTypeOf src))
              (readView s.ddr (toDDR ⟨p, .castIn 0⟩ src))))).ddr = _
        refine (store_dest (F := F) hwhole hroot (BodyState.setTile_self _ _ _)).trans ?_
        rw [BodyState.setTile_self, hs, Item.meaning, Lowering.value, Lowering.dest, ← hnum]
        rfl
      cases reshape with
      | false => exact hreduce dst hwhole hroot rfl
      | true =>
          refine hreduce (expandInit p dst) hwhole hroot ?_
          simp only [Lowering.verify] at hv
          split at hv
          · rename_i rows cols _
            simp only [Bool.and_eq_true, decide_eq_true_eq, if_true] at hv
            show [dst.type.shape.headD 0, 1].prod = dst.type.shape.prod
            rw [hv.2]
            simp
          · cases hv

theorem run_item {item : Item Lowering} (h : item.OverBuffers) :
    (run (machineOps F) (unrollBody (item.expand p)) s).ddr = item.meaning F s.ddr := by
  cases item with
  | op l => exact run_lowering h.1 h.2
  | define | ret => rfl

/-- **Conversion preserves meaning**, from any contents of the tiles. -/
theorem run_items (h : BufferBody items) :
    (run (machineOps F) (unrollBody (expandFrom p items)) s).ddr = meaning F items s.ddr := by
  induction items generalizing p s with
  | nil => rfl
  | cons item items ih =>
      rw [expandFrom, unrollBody_append, run_append,
        ih fun item' hmem => h item' (List.mem_cons_of_mem item hmem),
        run_item (h item List.mem_cons_self), meaning, meaning, List.foldl_cons]

end Operations

end EclipseNpu.Compiler

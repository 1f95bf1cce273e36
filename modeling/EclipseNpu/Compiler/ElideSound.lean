import EclipseNpu.Compiler.ElidedBody

/-!
# Compiler — ElideSound

A converted body before and after `eclipse-elide-copies`. The two runs differ
only in the tiles whose loads were dropped and in the buffers whose stores were
erased (`Simulates`); at every compute operation the dropped tile holds what the
tile of the last store holds (`Resident`). So the pass keeps every buffer that
counts exactly when no matmul reads an elided buffer and none is an argument of
the function (`elideCopies_preserves_iff`).
-/

namespace EclipseNpu.Compiler

open EclipseNpu.Runtime

/-! ## The edited program -/

/-- Editing commutes with unrolling when the loops stay as they are. -/
theorem unrollBody_editBody {f : Inst → Option Inst} {body : List Stmt}
    (hloop : ∀ id lb ub step insts, .scfFor id lb ub step insts ∈ body → ∀ i ∈ insts,
      f i = some i ∧ ∀ n, f { i with op := i.op.atIteration n }
        = some { i with op := i.op.atIteration n }) :
    unrollBody (editBody f body) = (unrollBody body).filterMap f := by
  induction body with
  | nil => rfl
  | cons st body ih =>
      have htail := ih fun id lb ub step insts hmem =>
        hloop id lb ub step insts (List.mem_cons_of_mem _ hmem)
      rw [editBody, List.flatMap_cons, unrollBody, List.flatMap_append, unrollBody,
        List.flatMap_cons, List.filterMap_append]
      refine congr (congrArg _ ?_) htail
      cases st with
      | inst i =>
          rw [mapInsts_insts]
          cases hi : f i with
          | none => simp [Stmt.unroll, hi]
          | some j => simp [Stmt.unroll, hi]
      | scfFor id lb ub step insts =>
          have hstay := hloop id lb ub step insts List.mem_cons_self
          have hinsts : insts.filterMap f = insts :=
            (List.filterMap_congr fun i hi => (hstay i hi).1).trans List.filterMap_some
          show [Stmt.scfFor id lb ub step (insts.filterMap f)].flatMap Stmt.unroll = _
          rw [hinsts, List.flatMap_singleton]
          have hunroll : ∀ i ∈ (Stmt.scfFor id lb ub step insts).unroll, f i = some i := by
            intro i hi
            obtain ⟨n, -, hi⟩ := List.mem_flatMap.mp hi
            obtain ⟨j, hj, rfl⟩ := List.mem_map.mp hi
            exact (hstay j hj).2 n
          exact ((List.filterMap_congr hunroll).trans List.filterMap_some).symm

section Lowered

variable {items : List (Item Lowering)} {q : Nat} {l : Lowering}

theorem atIteration_buffer {v : Value} (hv : v.isBuffer = true) (n : Nat) :
    v.atIteration n = v := by
  cases v with
  | blockArg | alloc | getGlobal => rfl
  | memorySpaceCast | subView | expandShape => cases hv

theorem atIteration_tile {t : Value} (ht : t ∈ l.tiles q) (n : Nat) : t.atIteration n = t := by
  obtain ⟨-, -, -, id, type, rfl⟩ := isTile_of_mem_tiles ht
  rfl

/-- An operation of the loop, in one of its iterations. -/
theorem LoweredInst.atIteration (h : BufferBody items) (hl : items[q]? = some (.op l))
    {i : Inst} (hi : LoweredInst q l i) (n : Nat) :
    LoweredInst q l { i with op := i.op.atIteration n } := by
  have hcast : ∀ x ∈ l.sources, ∀ id, (toDDR id x).atIteration n = toDDR id x := by
    intro x hx id
    show toDDR id (x.atIteration n) = _
    rw [atIteration_buffer (h.source hl hx)]
  have hsub : ∀ x ∈ l.sources, ∀ id id' offsets sizes strides, ∃ offsets',
      (Value.subView id (toDDR id' x) offsets sizes strides).atIteration n
        = .subView id (toDDR id' x) offsets' sizes strides := by
    intro x hx id id' offsets sizes strides
    refine ⟨_, Eq.trans rfl (congrArg (Value.subView id · _ sizes strides) (hcast x hx id'))⟩
  have htarget : ∀ id, (toDDR id (l.target q)).atIteration n = toDDR id (l.target q) := by
    intro id
    show toDDR id ((l.target q).atIteration n) = _
    rcases h.target hl with hbuffer | ⟨kind, src, dst, rfl, hbuffer⟩
    · rw [atIteration_buffer hbuffer]
    · show toDDR id (.expandShape _ (dst.atIteration n) _) = _
      rw [atIteration_buffer hbuffer]
      rfl
  cases hi with
  | @castIn k x hx =>
      rw [show ((Op.define (toDDR ⟨q, .castIn k⟩ x)).atIteration n)
        = .define (toDDR ⟨q, .castIn k⟩ x) from congrArg Op.define (hcast x hx _)]
      exact .castIn hx
  | castOut =>
      rw [show ((Op.define (toDDR ⟨q, .castOut⟩ (l.target q))).atIteration n)
        = .define (toDDR ⟨q, .castOut⟩ (l.target q)) from congrArg Op.define (htarget _)]
      exact .castOut
  | @expand kind src dst hkind =>
      have hdst : dst.isBuffer = true := (h.op hl).2 dst (by simp [hkind, Lowering.operands])
      have hsame : (Op.define (expandInit q dst)).atIteration n = .define (expandInit q dst) := by
        show Op.define (.expandShape _ (dst.atIteration n) _) = _
        rw [atIteration_buffer hdst]
        rfl
      rw [hsame]
      exact .expand hkind
  | @tile pos t hpos ht =>
      rw [show (Op.define t).atIteration n = .define t from
        congrArg Op.define (atIteration_tile ht n)]
      exact .tile hpos ht
  | @sub pos pos' k x offsets sizes strides hpos hx =>
      obtain ⟨offsets', hview⟩ :=
        hsub x (blocks_source hx) ⟨q, pos'⟩ ⟨q, .castIn k⟩ offsets sizes strides
      rw [show (Op.define (.subView ⟨q, pos'⟩ (toDDR ⟨q, .castIn k⟩ x) offsets sizes
          strides)).atIteration n = .define _ from congrArg Op.define hview]
      exact .sub hpos hx
  | @load k x t hx =>
      have hsame : (loadInst q k x t).op.atIteration n = (loadInst q k x t).op := by
        show Op.dmaLoad ((toDDR _ x).atIteration n) _ = _
        rw [hcast x (ins_source hx)]
        rfl
      rw [hsame]
      exact .load hx
  | @subLoad pos pos' k x tile offsets sizes strides hpos hx ht hne =>
      obtain ⟨offsets', hview⟩ :=
        hsub x (blocks_source hx) ⟨q, pos'⟩ ⟨q, .castIn k⟩ offsets sizes strides
      rw [show (Op.dmaLoad (.subView ⟨q, pos'⟩ (toDDR ⟨q, .castIn k⟩ x) offsets sizes
          strides) tile).atIteration n = .dmaLoad _ tile from
        congrArg₂ Op.dmaLoad hview (atIteration_tile ht n)]
      exact .subLoad hpos hx ht hne
  | sync hpos => exact .sync hpos
  | @compute pos accumulate hpos =>
      have hsame : (l.compute q accumulate).atIteration n = l.compute q accumulate := by
        cases l <;> rfl
      rw [hsame]
      exact .compute hpos
  | store =>
      have hsame : (storeInst q l).op.atIteration n = (storeInst q l).op := by
        show Op.dmaStore ((l.outTile q).atIteration n) ((toDDR _ (l.target q)).atIteration n) = _
        obtain ⟨t, ht⟩ := outTile_eq q l
        rw [htarget, storeInst, ht]
        rfl
      rw [hsame]
      exact .store
  | @free pos t hpos ht =>
      rw [show (Op.dealloc t).atIteration n = .dealloc t from
        congrArg Op.dealloc (atIteration_tile ht n)]
      exact .free hpos ht

/-- **An unrolled expansion** is made of the same operations. -/
theorem lowered_unrolled (h : BufferBody items) (hl : items[q]? = some (.op l)) {i : Inst}
    (hi : i ∈ unrollBody (l.expand q)) : LoweredInst q l i := by
  obtain ⟨st, hst, hi⟩ := List.mem_flatMap.mp hi
  have hlow := lowered_of_mem hst
  cases st with
  | inst j =>
      obtain rfl := List.mem_singleton.mp hi
      exact hlow
  | scfFor id lb ub step body =>
      obtain ⟨n, -, hi⟩ := List.mem_flatMap.mp hi
      obtain ⟨j, hj, rfl⟩ := List.mem_map.mp hi
      exact (hlow.2 j hj).1.atIteration h hl n

end Lowered

section Edited

variable {items : List (Item Lowering)} {pairs : List (Value × Value)} {erased : List OpId}
  {q : Nat} {l : Lowering}

/-- An operation the pass keeps. -/
def Kept (items : List (Item Lowering)) (erased : List OpId) (id : OpId) : Bool :=
  decide (id ∉ forwardedIds items ∧ id ∉ erased)

theorem elideEdit_eq (i : Inst) : elideEdit items pairs erased i
    = if Kept items erased i.id then some { i with op := replaceAll pairs i.op } else none := by
  by_cases hload : i.id ∈ forwardedIds items
  · simp [elideEdit, forwardEdit, Kept, hload]
  · by_cases hstore : i.id ∈ erased
    · simp [elideEdit, forwardEdit, dropIds, Kept, hload, hstore]
    · simp [elideEdit, forwardEdit, dropIds, Kept, hload, hstore]

/-- The load of a tile that no store was found for. -/
theorem not_forwards (h : BufferBody items) {k : Nat}
    (hid : (⟨q, .load k⟩ : OpId) ∉ forwardedIds items) (x : Value) (t : MemRefType) (j : Nat)
    (l' : Lowering) : ¬ Forwards items q k x t j l' := fun hf =>
  hid ((mem_forwardedIds h).mpr ⟨q, k, x, t, j, l', hf, rfl⟩)

/-- **What replacing changes**: the operands of a compute operation and of a
free. -/
theorem ForwardPairs.stays (hp : ForwardPairs items pairs) (h : BufferBody items)
    (hl : items[q]? = some (.op l)) {i : Inst} (hi : LoweredInst q l i)
    (hid : i.id ∉ forwardedIds items) :
    replaceAll pairs i.op = i.op
      ∨ (l.ins ≠ [] ∧ ∃ accumulate, i.op = l.compute q accumulate)
      ∨ ∃ t t', i.op = .dealloc t ∧ replaceAll pairs i.op = .dealloc t' := by
  cases hi with
  | castIn hx => exact .inl (hp.define h hl (.castIn hx))
  | castOut => exact .inl (hp.define h hl .castOut)
  | expand hkind => exact .inl (hp.define h hl (.expand hkind))
  | tile hpos ht => exact .inl (hp.define h hl (.tile hpos ht))
  | sub hpos hx => exact .inl (hp.define h hl (.sub hpos hx))
  | @load k x t hx =>
      have hroot := h.source_root hl (ins_source hx)
      refine .inl ?_
      rw [replaceAll_eq]
      show Op.dmaLoad (replaceUses pairs _) (replaceUses pairs _) = _
      rw [hp.loaded fun x' j l' => not_forwards h hid x' t j l',
        hp.buffer (show (toDDR _ x).root.isTile = false from hroot)]
      rfl
  | @subLoad pos pos' k x tile offsets sizes strides hpos hx ht hne =>
      have hroot := h.source_root hl (blocks_source hx)
      have hins : l.ins = [] := by
        cases l with
        | matmul => rfl
        | ewise | act | reduce => cases hx
      refine .inl ?_
      rw [replaceAll_eq]
      show Op.dmaLoad (replaceUses pairs _) (replaceUses pairs _) = _
      rw [hp.block hl hins ht,
        hp.buffer (show (Value.subView _ (toDDR _ x) _ _ _).root.isTile = false from hroot)]
  | sync => exact .inl (replaceAll_eq pairs .sync)
  | @compute pos accumulate hpos =>
      by_cases hins : l.ins = []
      · refine .inl ?_
        rw [replaceAll_eq]
        have hblock := fun t ht => hp.block (t := t) hl hins ht
        cases l with
        | matmul lhs rhs dst =>
            show Op.matmul (replaceUses pairs _) (replaceUses pairs _) (replaceUses pairs _) _ _ _
              = _
            rw [hblock _ (by simp [Lowering.tiles]), hblock _ (by simp [Lowering.tiles]),
              hblock _ (by simp [Lowering.tiles, Lowering.outTile])]
            rfl
        | ewise | act | reduce => cases hins
      · exact .inr (.inl ⟨hins, accumulate, rfl⟩)
  | store => exact .inl (storeInst_stays hp h hl)
  | @free pos t hpos ht => exact .inr (.inr ⟨t, _, rfl, replaceAll_eq pairs (.dealloc t)⟩)

/-- A matmul stays as it is, but for its store. -/
theorem elideEdit_block (hp : ForwardPairs items pairs) (h : BufferBody items)
    (he : ErasedIds items erased) (hl : items[q]? = some (.op l)) (hins : l.ins = [])
    {i : Inst} (hi : LoweredInst q l i) (hpos : i.id.pos ≠ .store) :
    elideEdit items pairs erased i = some i := by
  have hitem : i.id.item = q := by cases hi <;> rfl
  have hload : i.id ∉ forwardedIds items := by
    intro hmem
    obtain ⟨q', k, x, t, j, l', ⟨⟨m, hm, hx⟩, -, -⟩, hid⟩ :=
      (mem_forwardedIds h).mp hmem
    obtain rfl : q' = q := by rw [← hitem, hid]
    rw [hl] at hm
    cases hm
    rw [hins] at hx
    cases hx
  have hstore : i.id ∉ erased := by
    intro hmem
    obtain ⟨j, x, -, hid⟩ := (he i.id).mp hmem
    exact hpos (by rw [hid])
  have hkept : Kept items erased i.id = true := decide_eq_true ⟨hload, hstore⟩
  rw [elideEdit_eq, if_pos hkept]
  rcases hp.stays h hl hi hload with hsame | ⟨hne, -⟩ | ⟨t, t', hop, hrep⟩
  · rw [hsame]
  · exact absurd hins hne
  · cases hi with
    | free hpos ht =>
        cases hop
        rw [replaceAll_eq]
        show some (Inst.mk _ (.dealloc (replaceUses pairs _))) = _
        rw [hp.block hl hins ht]
    | castIn | castOut | expand | tile | sub | load | subLoad | sync | store => cases hop
    | compute => cases l <;> cases hop

/-- **The unrolled program** after the pass. -/
theorem unrollBody_elided (hp : ForwardPairs items pairs) (h : BufferBody items)
    (he : ErasedIds items erased) :
    unrollBody (editBody (elideEdit items pairs erased) (expandFrom 0 items))
      = (unrollBody (expandFrom 0 items)).filterMap (elideEdit items pairs erased) := by
  refine unrollBody_editBody fun id lb ub step insts hmem i hi => ?_
  have hstmt : ∀ (rest : List (Item Lowering)) (n : Nat), items.drop n = rest →
      .scfFor id lb ub step insts ∈ expandFrom n rest →
      ∃ q l, items[q]? = some (.op l)
        ∧ LoweredStmt q l (.scfFor id lb ub step insts) := by
    intro rest
    induction rest with
    | nil => intro n _ hmem; cases hmem
    | cons item rest ih =>
        intro n hrest hmem
        have hitem : items[n]? = some item := by
          rw [← List.head?_drop, hrest, List.head?_cons]
        have htail : items.drop (n + 1) = rest := by
          rw [← List.tail_drop, hrest, List.tail_cons]
        rcases List.mem_append.mp hmem with hmem | hmem
        · cases item with
          | op l => exact ⟨n, l, hitem, lowered_of_mem hmem⟩
          | define | ret => cases List.mem_singleton.mp hmem
        · exact ih (n + 1) htail hmem
  obtain ⟨q, l, hl, hins, hlow⟩ := hstmt items 0 rfl hmem
  obtain ⟨hi, hpos⟩ := hlow i hi
  refine ⟨elideEdit_block hp h he hl hins hi hpos, fun k => ?_⟩
  exact elideEdit_block hp h he hl hins (hi.atIteration h hl k) hpos

end Edited

/-! ## When the pass is safe -/

/-- **No elided buffer is read by a matmul**, and none is an argument of the
function that holds anything. -/
def SafeToElide (items : List (Item Lowering)) : Prop :=
  ∀ i x, ElidedStore items i x →
    (∀ (q : Nat) (l : Lowering), items[q]? = some (.op l) → x ∉ l.blocks)
      ∧ (x.isBlockArg = true → x.type.numElements = 0)

/-- A buffer whose store is erased. -/
def ElidedBuffer (items : List (Item Lowering)) (v : Value) : Prop :=
  ∃ i, ElidedStore items i v

/-- A tile whose load is dropped. -/
def ForwardedTile (items : List (Item Lowering)) (v : Value) : Prop :=
  ∃ q k x t j l, Forwards items q k x t j l ∧ v = tileIn q k t

/-- The states of the two runs. -/
abbrev Simulates (items : List (Item Lowering)) (s t : BodyState) : Prop :=
  SameOff (ElidedBuffer items) (ForwardedTile items) s t

/-! ## One operation -/

section Types

variable {l : Lowering}

/-- The tile a buffer is loaded into has its type. -/
theorem ins_type (hv : l.verify = true) {k : Nat} {x : Value} {t : MemRefType}
    (hx : l.ins[k]? = some (x, t)) : t = sramTypeOf x := by
  cases l with
  | matmul => cases hx
  | ewise kind big small out =>
      rcases k with _ | _ | k <;> cases hx <;> rfl
  | act kind src dst =>
      cases k with
      | zero =>
          cases hx
          simp only [Lowering.verify] at hv
          split at hv
          · rename_i rows cols hdst
            simp only [isF16, Bool.and_eq_true, decide_eq_true_eq] at hv
            obtain ⟨⟨-, hbits⟩, hshape, hbits'⟩ := hv
            simp [sramTypeOf, hdst, hbits, hshape, hbits']
          · cases hv
      | succ k => cases hx
  | reduce kind src dst reshape =>
      cases k with
      | zero => cases hx; rfl
      | succ k => cases hx

/-- And so has the tile that is stored to it. -/
theorem outTile_type (hv : l.verify = true) (p : Nat) :
    (l.outTile p).type = sramTypeOf (l.target p) := by
  cases l with
  | matmul lhs rhs dst =>
      simp only [Lowering.verify, isF16, Bool.and_eq_true, decide_eq_true_eq] at hv
      show MemRefType.mk [matmulM lhs, matmulN rhs] _ _ = MemRefType.mk dst.type.shape _ _
      rw [hv.1.2.1]
      rfl
  | ewise | act | reduce => rfl

end Types

section Step

variable {items : List (Item Lowering)} {pairs : List (Value × Value)} {erased : List OpId}
  {ops : TileOps} {q : Nat} {l : Lowering} {s t : BodyState}

theorem forwarded_type (h : BufferBody items) {k j : Nat} {x : Value} {type : MemRefType}
    (hf : Forwards items q k x type j l) : (l.outTile j).type = type := by
  obtain ⟨l', hl', hx⟩ := hf.load
  rw [outTile_type (h.op hf.store).1, hf.key, ins_type (h.op hl').1 hx]

/-- The tile an operation works on after the pass: of the same type, and loaded
or stored from. -/
theorem ForwardPairs.tile (hp : ForwardPairs items pairs) (h : BufferBody items) {v : Value}
    (hv : v.isTile = true) : (replaceUses pairs v).type = v.type
      ∧ ¬ ForwardedTile items (replaceUses pairs v) := by
  by_cases hf : ForwardedTile items v
  · obtain ⟨q, k, x, type, j, l, hf, rfl⟩ := hf
    rw [hp.forward hf]
    refine ⟨forwarded_type h hf, ?_⟩
    rintro ⟨q', k', x', t', j', l', -, heq⟩
    obtain ⟨t'', ht''⟩ := outTile_eq j l
    rw [ht''] at heq
    cases heq
  · have hroot : v.root = v := by
      cases v with
      | alloc => rfl
      | _ => cases hv
    have hsame : replaceUses pairs v = v := by
      refine replaceUses_of_root (hp.untouched fun q k t heq x j l hf' => hf ?_)
      rw [hroot] at heq
      exact ⟨q, k, x, t, j, l, hf', heq⟩
    rw [hsame]
    exact ⟨rfl, hf⟩

/-- **A compute operation** on the tiles before and after the pass, when the
dropped tiles hold what replaces them. -/
theorem Simulates.compute (hp : ForwardPairs items pairs) (h : BufferBody items)
    (hsim : Simulates items s t) {accumulate : Bool}
    (hread : ∀ v ∈ (l.compute q accumulate).readTiles,
      s.sram v = s.sram (replaceUses pairs v)) (hins : l.ins ≠ []) :
    Simulates items ((l.compute q accumulate).step ops s)
      ((replaceAll pairs (l.compute q accumulate)).step ops t) := by
  have htile : ∀ v ∈ (l.compute q accumulate).readTiles, v.isTile = true →
      s.sram v = t.sram (replaceUses pairs v)
        ∧ (replaceUses pairs v).type = v.type := fun v hv hvt => by
    obtain ⟨htype, hnot⟩ := hp.tile h hvt
    exact ⟨(hread v hv).trans (hsim.sram _ hnot), htype⟩
  have hout : ∀ type, replaceUses pairs (tileOut q type) = tileOut q type := fun type =>
    replaceUses_of_root (hp.untouched fun q k t' heq => by cases heq)
  rw [replaceAll_eq]
  cases l with
  | matmul => exact absurd rfl hins
  | ewise kind big small out =>
      obtain ⟨hbig, htbig⟩ := htile (tileIn q 0 (sramTypeOf big))
        (by simp [Lowering.compute, Op.readTiles]) rfl
      obtain ⟨hsmall, htsmall⟩ := htile (tileIn q 1 (sramTypeOf small))
        (by simp [Lowering.compute, Op.readTiles]) rfl
      show SameOff _ _ (s.setTile _ _) (t.setTile (replaceUses pairs (tileOut q _))
        (ops.ewise kind (replaceUses pairs _).type (replaceUses pairs _).type
          (replaceUses pairs (tileOut q _)).type (t.sram (replaceUses pairs _))
          (t.sram (replaceUses pairs _))))
      rw [hout, htbig, htsmall, ← hbig, ← hsmall]
      exact hsim.setTile _ rfl
  | act kind src dst =>
      obtain ⟨hsrc, htsrc⟩ := htile (tileIn q 0 (sramTypeOf dst))
        (by simp [Lowering.compute, Op.readTiles]) rfl
      show SameOff _ _ (s.setTile _ _) (t.setTile (replaceUses pairs (tileOut q _))
        (ops.act kind (replaceUses pairs _).type (replaceUses pairs (tileOut q _)).type
          (t.sram (replaceUses pairs _))))
      rw [hout, htsrc, ← hsrc]
      exact hsim.setTile _ rfl
  | reduce kind src dst reshape =>
      obtain ⟨hsrc, htsrc⟩ := htile (tileIn q 0 (sramTypeOf src))
        (by simp [Lowering.compute, Op.readTiles]) rfl
      show SameOff _ _ (s.setTile _ _) (t.setTile (replaceUses pairs (tileOut q _))
        (ops.reduce kind (replaceUses pairs _).type (replaceUses pairs (tileOut q _)).type
          (t.sram (replaceUses pairs _))))
      rw [hout, htsrc, ← hsrc]
      exact hsim.setTile _ rfl

theorem isWhole_target (h : BufferBody items) (hl : items[q]? = some (.op l)) (id : OpId) :
    (toDDR id (l.target q)).isWhole = true := by
  rcases h.target hl with hbuffer | ⟨kind, src, dst, rfl, hbuffer⟩
  · exact (isBuffer_cases hbuffer).2.2
  · exact (isBuffer_cases hbuffer).2.2

/-- **What the pass keeps avoids the difference.** -/
theorem SafeToElide.avoids (hsafe : SafeToElide items) (h : BufferBody items)
    (hl : items[q]? = some (.op l)) {i : Inst} (hi : LoweredInst q l i)
    (hid : i.id ∉ forwardedIds items)
    (hop : l.ins = [] ∨ ∀ accumulate, i.op ≠ l.compute q accumulate) :
    i.op.Avoids (ElidedBuffer items) (ForwardedTile items) := by
  cases hi with
  | castIn | castOut | expand | tile | sub | sync | free =>
      exact ⟨by simp [Op.readBuffers], by simp [Op.readTiles], by simp⟩
  | @load k x type hx =>
      refine ⟨fun v hv => ?_, by simp [Op.readTiles, loadInst],
        by simp [loadInst]⟩
      obtain rfl := List.mem_singleton.mp hv
      obtain ⟨hroot, -, -⟩ := isBuffer_cases (h.source hl (ins_source hx))
      rintro ⟨j, he⟩
      rw [show (toDDR _ x).root = x from hroot] at he
      obtain ⟨l', hf⟩ := he.forwards hl hx
      exact not_forwards h hid x type j l' hf
  | @subLoad pos pos' k x tile offsets sizes strides hpos hx ht hne =>
      refine ⟨fun v hv => ?_, by simp [Op.readTiles], by simp⟩
      obtain rfl := List.mem_singleton.mp hv
      obtain ⟨hroot, -, -⟩ := isBuffer_cases (h.source hl (blocks_source hx))
      rintro ⟨j, he⟩
      rw [show (Value.subView _ (toDDR _ x) _ _ _).root = x from hroot] at he
      exact (hsafe j x he).1 q l hl hx
  | @compute pos accumulate hpos =>
      rcases hop with hins | hop
      · have hnot : ∀ k type, ¬ ForwardedTile items (tileIn q k type) := by
          rintro k type ⟨q', k', x, t', j, l', hf, heq⟩
          cases heq
          obtain ⟨m, hm, hx⟩ := hf.load
          rw [hl] at hm
          cases hm
          rw [hins] at hx
          cases hx
        cases l with
        | matmul lhs rhs dst =>
            refine ⟨by simp [Op.readBuffers, Lowering.compute], fun v hv => ?_,
              by simp [Lowering.compute]⟩
            simp only [Lowering.compute, Op.readTiles, List.mem_cons, List.not_mem_nil,
              or_false] at hv
            rcases hv with rfl | rfl | rfl
            · exact hnot _ _
            · exact hnot _ _
            · rintro ⟨q', k', x, t', j, l', -, heq⟩
              cases heq
        | ewise | act | reduce => cases hins
      · exact absurd rfl (hop accumulate)
  | store =>
      refine ⟨by simp [Op.readBuffers, storeInst], fun v hv => ?_, fun src dst heq => ?_⟩
      · obtain rfl := List.mem_singleton.mp hv
        rintro ⟨q', k', x, t', j, l', -, heq⟩
        obtain ⟨type, htype⟩ := outTile_eq q l
        rw [htype] at heq
        cases heq
      · cases heq
        exact isWhole_target h hl _

theorem observe_id {i : Inst} {s : BodyState} {o : Observation} (ho : o ∈ i.observe s) :
    o.1 = i.id := by
  obtain ⟨id, op⟩ := i
  cases op with
  | dmaLoad src dst =>
      obtain rfl := List.mem_singleton.mp ho
      rfl
  | ret vs =>
      obtain ⟨v, -, rfl⟩ := List.mem_map.mp ho
      rfl
  | _ => cases ho

theorem observe_compute (pairs : List (Value × Value)) {i : Inst} {accumulate : Bool}
    (hop : i.op = l.compute q accumulate) (s : BodyState) : i.observe s = []
      ∧ ({ i with op := replaceAll pairs i.op } : Inst).observe s = [] := by
  rw [replaceAll_eq, hop]
  obtain ⟨id, op⟩ := i
  obtain rfl : op = l.compute q accumulate := hop
  cases l with
  | matmul | ewise | act | reduce => exact ⟨rfl, rfl⟩

/-- **An operation that the pass drops** changes what may differ. -/
theorem Simulates.drop (h : BufferBody items) (he : ErasedIds items erased) {i : Inst}
    (hi : ItemInst items i) (hdrop : ¬ Kept items erased i.id = true)
    (hsim : Simulates items s t) : Simulates items (i.op.step ops s) t := by
  have hcases : i.id ∈ forwardedIds items ∨ i.id ∈ erased := by
    by_contra hnot
    exact hdrop (decide_eq_true (not_or.mp hnot))
  rcases hcases with hid | hid
  · obtain ⟨q, k, x, type, j, l', hf, hid⟩ := (mem_forwardedIds h).mp hid
    obtain ⟨m, hm, hx⟩ := hf.load
    -- among the operations of the item only the load has this place
    have hload : ∃ x' type', m.ins[k]? = some (x', type') ∧ i = loadInst q k x' type' := by
      cases hi with
      | define | ret => cases hid
      | @op q' l i hl hlow =>
          have hpos : ∀ pos : Pos, pos.isTransfer = false → pos ≠ .load k := by
            rintro pos hpos rfl
            cases hpos
          cases hlow with
          | castIn | castOut | expand | store => cases hid
          | tile hp | sub hp | sync hp | compute hp | free hp =>
              cases hid
              cases hp
          | load hx' =>
              cases hid
              rw [hm] at hl
              cases hl
              exact ⟨_, _, hx', rfl⟩
          | subLoad hp hb =>
              cases hid
              rw [hm] at hl
              cases hl
              cases m with
              | matmul => cases hx
              | ewise | act | reduce => cases hb
    obtain ⟨x', type', hx', rfl⟩ := hload
    rw [hx] at hx'
    cases hx'
    refine ⟨fun v hv => hsim.ddr v hv, fun v hv => ?_⟩
    have hne : v ≠ tileIn q k type := fun heq => hv ⟨q, k, x, type, j, l', hf, heq⟩
    exact (BodyState.setTile_ne s _ hne).trans (hsim.sram v hv)
  · obtain ⟨j, x, hes, hid⟩ := (he i.id).mp hid
    have hstore : ∃ l, items[j]? = some (.op l) ∧ i = storeInst j l := by
      cases hi with
      | define | ret => cases hid
      | @op q' l i hl hlow =>
          cases hlow with
          | castIn | castOut | expand | load => cases hid
          | tile hp | sub hp | sync hp | compute hp | free hp =>
              cases hid
              cases hp
          | subLoad hp hb =>
              cases hid
              exact absurd rfl hp
          | store =>
              cases hid
              exact ⟨l, hl, rfl⟩
    obtain ⟨l, hl, rfl⟩ := hstore
    have hx := (exists_elidedStore hl).mp ⟨x, hes⟩
    obtain ⟨q, k, m, type, hm, hread⟩ := hx.read
    obtain ⟨hroot, -, -⟩ := isBuffer_cases (h.source hm (ins_source hread))
    refine ⟨fun v hv => ?_, fun v hv => hsim.sram v hv⟩
    have hne : v ≠ (toDDR ⟨j, .castOut⟩ (l.target j)).root := by
      rintro rfl
      refine hv ⟨j, ?_⟩
      rw [show (toDDR ⟨j, .castOut⟩ (l.target j)).root = l.target j from hroot]
      exact hx
    exact (BodyState.setBuffer_ne s _ hne).trans (hsim.ddr v hv)

/-- **An operation that the pass keeps.** -/
theorem Simulates.keep (hp : ForwardPairs items pairs) (hsafe : SafeToElide items)
    (h : BufferBody items) {i : Inst} (hi : ItemInst items i)
    (hid : i.id ∉ forwardedIds items) (hsim : Simulates items s t)
    (hread : ∀ v ∈ i.op.readTiles, s.sram v = s.sram (replaceUses pairs v)) :
    Simulates items (i.op.step ops s) ((replaceAll pairs i.op).step ops t)
      ∧ ({ i with op := replaceAll pairs i.op } : Inst).observe t = i.observe s := by
  -- an operation that stays and reads nothing that differs
  have hsame : replaceAll pairs i.op = i.op →
      i.op.Avoids (ElidedBuffer items) (ForwardedTile items) →
      Simulates items (i.op.step ops s) ((replaceAll pairs i.op).step ops t)
        ∧ ({ i with op := replaceAll pairs i.op } : Inst).observe t = i.observe s := by
    intro heq havoid
    rw [heq]
    exact ⟨hsim.step havoid, (hsim.observe havoid).symm⟩
  cases hi with
  | @define q v hitem =>
      refine ⟨?_, ?_⟩
      · rw [replaceAll_define]
        exact hsim
      · rw [replaceAll_define]
        rfl
  | @ret q vs hitem =>
      have hbuffer := h _ (List.mem_of_getElem? hitem)
      refine hsame ?_ ⟨fun v hv => ?_, by simp [Op.readTiles], by simp⟩
      · rw [replaceAll_eq]
        refine congrArg Op.ret ((List.map_congr_left fun w hw => ?_).trans (List.map_id vs))
        obtain ⟨hroot, htile, -⟩ := isBuffer_cases (hbuffer w hw)
        exact hp.buffer (by rw [hroot, htile])
      · obtain ⟨w, hw, rfl⟩ := List.mem_map.mp hv
        rintro ⟨j, he⟩
        rw [(isBuffer_cases (hbuffer w hw)).1] at he
        exact he.notReturned q vs hitem hw
  | @op q l i hl hlow =>
      by_cases hcompute : l.ins ≠ [] ∧ ∃ accumulate, i.op = l.compute q accumulate
      · obtain ⟨hins, accumulate, hop⟩ := hcompute
        refine ⟨?_, (observe_compute pairs hop t).2.trans (observe_compute pairs hop s).1.symm⟩
        rw [hop] at hread ⊢
        exact hsim.compute hp h hread hins
      · have havoid := hsafe.avoids h hl hlow hid (by
          by_contra hnot
          obtain ⟨hins, hop⟩ := not_or.mp hnot
          obtain ⟨accumulate, hop⟩ := not_forall.mp hop
          exact hcompute ⟨hins, accumulate, not_not.mp hop⟩)
        rcases hp.stays h hl hlow hid with heq | hop | ⟨v, v', hop, hrep⟩
        · exact hsame heq havoid
        · exact absurd hop hcompute
        · obtain ⟨id, op⟩ := i
          cases hop
          refine ⟨?_, ?_⟩
          · rw [hrep]
            exact hsim
          · rw [hrep]
            rfl

/-- **One operation**, before and after the pass. -/
theorem Simulates.item (hp : ForwardPairs items pairs) (he : ErasedIds items erased)
    (hsafe : SafeToElide items) (h : BufferBody items) {i : Inst} (hi : ItemInst items i)
    (hsim : Simulates items s t)
    (hread : ∀ v ∈ i.op.readTiles, s.sram v = s.sram (replaceUses pairs v)) :
    Simulates items (i.op.step ops s)
        (run ops (elideEdit items pairs erased i).toList t)
      ∧ observations ops (elideEdit items pairs erased i).toList t
        = (i.observe s).filter fun o => Kept items erased o.1 := by
  rw [elideEdit_eq]
  by_cases hkept : Kept items erased i.id = true
  · rw [if_pos hkept]
    have hid := (of_decide_eq_true hkept).1
    obtain ⟨hstep, hobs⟩ : Simulates items (i.op.step ops s) _ ∧ _ :=
      hsim.keep hp hsafe h hi hid hread
    refine ⟨hstep, ?_⟩
    show ({ i with op := replaceAll pairs i.op } : Inst).observe t ++ [] = _
    rw [List.append_nil, hobs, List.filter_eq_self.mpr]
    intro o ho
    rw [observe_id ho]
    exact hkept
  · rw [if_neg hkept]
    refine ⟨hsim.drop h he hi hkept, ?_⟩
    refine (List.filter_eq_nil_iff.mpr fun o ho => ?_).symm
    rw [observe_id ho]
    exact hkept

/-- A straight-line program whose operations read no replaced tile. -/
theorem Simulates.run (hp : ForwardPairs items pairs) (he : ErasedIds items erased)
    (hsafe : SafeToElide items) (h : BufferBody items) {is : List Inst}
    (his : ∀ i ∈ is, ItemInst items i ∧ ∀ v ∈ i.op.readTiles, replaceUses pairs v = v)
    (hsim : Simulates items s t) :
    Simulates items (run ops is s)
        (run ops (is.filterMap (elideEdit items pairs erased)) t)
      ∧ observations ops (is.filterMap (elideEdit items pairs erased)) t
        = (observations ops is s).filter fun o => Kept items erased o.1 := by
  induction is generalizing s t with
  | nil => exact ⟨hsim, rfl⟩
  | cons i is ih =>
      obtain ⟨hi, hsame⟩ := his i List.mem_cons_self
      have hread : ∀ v ∈ i.op.readTiles, s.sram v = s.sram (replaceUses pairs v) :=
        fun v hv => by rw [hsame v hv]
      obtain ⟨hstep, hobs⟩ : Simulates items (i.op.step ops s) _ ∧ _ :=
        hsim.item hp he hsafe h hi hread
      obtain ⟨hrun, hobs'⟩ := ih (fun j hj => his j (List.mem_cons_of_mem _ hj)) hstep
      have hsplit : (i :: is).filterMap (elideEdit items pairs erased)
          = (elideEdit items pairs erased i).toList
            ++ is.filterMap (elideEdit items pairs erased) := by
        cases hedit : elideEdit items pairs erased i with
        | none => rw [List.filterMap_cons_none hedit]; rfl
        | some j => rw [List.filterMap_cons_some hedit]; rfl
      rw [hsplit, run_append, observations_append, hobs, hobs', observations,
        List.filter_append]
      exact ⟨hrun, rfl⟩

end Step

/-! ## One item -/

section Item

variable {items : List (Item Lowering)} {ops : TileOps} {q : Nat} {l : Lowering}

theorem tile_item {t : Value} (ht : t ∈ l.tiles q) :
    ∃ pos type, t = .alloc ⟨q, pos⟩ type none := by
  cases l with
  | matmul | ewise =>
      simp only [Lowering.tiles, Lowering.outTile, List.mem_cons, List.not_mem_nil,
        or_false] at ht
      rcases ht with rfl | rfl | rfl <;> exact ⟨_, _, rfl⟩
  | act | reduce =>
      simp only [Lowering.tiles, Lowering.outTile, List.mem_cons, List.not_mem_nil,
        or_false] at ht
      rcases ht with rfl | rfl <;> exact ⟨_, _, rfl⟩

/-- An item writes its own tiles and its target. -/
theorem LoweredInst.written {i : Inst} (hi : LoweredInst q l i) :
    (∀ v ∈ i.op.writtenTiles, v ∈ l.tiles q)
      ∧ ∀ v ∈ i.op.writtenBuffers, v = (l.target q).root := by
  cases hi with
  | castIn | castOut | expand | tile | sub | sync | free =>
      exact ⟨by simp [Op.writtenTiles], by simp [Op.writtenBuffers]⟩
  | @load k x t hx =>
      refine ⟨fun v hv => ?_, by simp [Op.writtenBuffers, loadInst]⟩
      obtain rfl := List.mem_singleton.mp hv
      have hmem := List.mem_of_getElem? hx
      rw [tiles_eq (List.ne_nil_of_mem hmem)]
      obtain ⟨hk, hget⟩ := List.getElem?_eq_some_iff.mp hx
      exact List.mem_cons_of_mem _ (List.mem_mapIdx.mpr ⟨k, hk, by rw [hget]⟩)
  | subLoad hpos hx ht hne =>
      refine ⟨fun v hv => ?_, by simp [Op.writtenBuffers]⟩
      obtain rfl := List.mem_singleton.mp hv
      exact ht
  | compute =>
      cases l with
      | matmul | ewise | act =>
          refine ⟨fun v hv => ?_, by simp [Op.writtenBuffers, Lowering.compute]⟩
          obtain rfl := List.mem_singleton.mp hv
          exact List.mem_cons_self
      | reduce kind src dst reshape =>
          refine ⟨fun v hv => ?_, by simp [Op.writtenBuffers, Lowering.compute]⟩
          obtain rfl := List.mem_singleton.mp hv
          exact List.mem_cons_self
  | store =>
      refine ⟨by simp [Op.writtenTiles, storeInst], fun v hv => ?_⟩
      exact List.mem_singleton.mp hv

/-- An expansion ends with its store and its frees. -/
theorem expand_store (p : Nat) (l : Lowering) : ∃ pre post,
    l.expand p = pre ++ .inst (storeInst p l) :: post
      ∧ ∀ st ∈ post, ∃ pos t, st = stmt p pos (.dealloc t) := by
  cases l with
  | matmul lhs rhs dst => exact ⟨_, _, rfl, by simp [stmt]⟩
  | ewise kind big small out =>
      exact ⟨(emitEwiseSequence p kind big small out).take 11,
        (emitEwiseSequence p kind big small out).drop 12, rfl,
        by simp [emitEwiseSequence, emitSequence, stmt]⟩
  | act kind src dst =>
      exact ⟨(lowerAct p kind src dst).take 8, (lowerAct p kind src dst).drop 9, rfl,
        by simp [lowerAct, emitSequence, stmt]⟩
  | reduce kind src dst reshape =>
      cases reshape with
      | false =>
          exact ⟨(lowerReduce p kind src dst).take 8, (lowerReduce p kind src dst).drop 9, rfl,
            by simp [lowerReduce, emitSequence, stmt]⟩
      | true =>
          exact ⟨((Lowering.reduce kind src dst true).expand p).take 9,
            ((Lowering.reduce kind src dst true).expand p).drop 10, rfl,
            by simp [Lowering.expand, lowerReduce, emitSequence, stmt]⟩

/-- The same, unrolled. -/
theorem unroll_store (p : Nat) (l : Lowering) : ∃ before after,
    unrollBody (l.expand p) = before ++ storeInst p l :: after
      ∧ ∀ i ∈ after, i.op.isSilent = true := by
  obtain ⟨pre, post, hexpand, hpost⟩ := expand_store p l
  refine ⟨unrollBody pre, unrollBody post, ?_, fun i hi => ?_⟩
  · rw [hexpand, unrollBody, List.flatMap_append, List.flatMap_cons]
    rfl
  · obtain ⟨st, hst, hi⟩ := List.mem_flatMap.mp hi
    obtain ⟨pos, t, rfl⟩ := hpost st hst
    obtain rfl := List.mem_singleton.mp hi
    rfl

/-- **An item that loads whole buffers** computes on what they hold. -/
theorem unroll_compute (hins : l.ins ≠ []) (p : Nat) : ∃ before after,
    unrollBody (l.expand p) = before ++ ⟨⟨p, .compute⟩, l.compute p false⟩ :: after
      ∧ (∀ i ∈ before, i.op.readTiles = [])
      ∧ (∀ i ∈ after, ∀ v ∈ i.op.readTiles, v = l.outTile p)
      ∧ ∀ (s : BodyState) (k : Nat) (x : Value) (t : MemRefType), l.ins[k]? = some (x, t) →
        (run ops before s).sram (tileIn p k t) = readView s.ddr (toDDR ⟨p, .castIn k⟩ x) := by
  cases l with
  | matmul => exact absurd rfl hins
  | ewise kind big small out =>
      refine ⟨(unrollBody (emitEwiseSequence p kind big small out)).take 9,
        (unrollBody (emitEwiseSequence p kind big small out)).drop 10, rfl, ?_, ?_, ?_⟩
      · simp [emitEwiseSequence, emitSequence, stmt, unrollBody, Stmt.unroll, Op.readTiles]
      · simp [emitEwiseSequence, emitSequence, stmt, unrollBody, Stmt.unroll, Op.readTiles,
          Lowering.outTile, Lowering.target]
      · intro s k x t hx
        rcases k with _ | _ | k
        · cases hx
          exact (BodyState.setTile_ne _ _ (by simp [tileIn])).trans (BodyState.setTile_self _ _ _)
        · cases hx
          exact BodyState.setTile_self _ _ _
        · cases hx
  | act kind src dst =>
      refine ⟨(unrollBody (lowerAct p kind src dst)).take 6,
        (unrollBody (lowerAct p kind src dst)).drop 7, rfl, ?_, ?_, ?_⟩
      · simp [lowerAct, emitSequence, stmt, unrollBody, Stmt.unroll, Op.readTiles]
      · simp [lowerAct, emitSequence, stmt, unrollBody, Stmt.unroll, Op.readTiles,
          Lowering.outTile, Lowering.target]
      · intro s k x t hx
        cases k with
        | zero =>
            cases hx
            exact BodyState.setTile_self _ _ _
        | succ k => cases hx
  | reduce kind src dst reshape =>
      have hload : ∀ (s : BodyState) (k : Nat) (x : Value) (t : MemRefType),
          [(src, sramTypeOf src)][k]? = some (x, t) →
          (s.setTile (tileIn p 0 (sramTypeOf src))
            (readView s.ddr (toDDR ⟨p, .castIn 0⟩ src))).sram (tileIn p k t)
            = readView s.ddr (toDDR ⟨p, .castIn k⟩ x) := by
        intro s k x t hx
        cases k with
        | zero =>
            cases hx
            exact BodyState.setTile_self _ _ _
        | succ k => cases hx
      cases reshape with
      | false =>
          refine ⟨(unrollBody (lowerReduce p kind src dst)).take 6,
            (unrollBody (lowerReduce p kind src dst)).drop 7, rfl, ?_, ?_, hload⟩
          · simp [lowerReduce, emitSequence, stmt, unrollBody, Stmt.unroll, Op.readTiles]
          · simp [lowerReduce, emitSequence, stmt, unrollBody, Stmt.unroll, Op.readTiles,
              Lowering.outTile, Lowering.target]
      | true =>
          refine ⟨(unrollBody ((Lowering.reduce kind src dst true).expand p)).take 7,
            (unrollBody ((Lowering.reduce kind src dst true).expand p)).drop 8, rfl, ?_, ?_,
            hload⟩
          · simp [Lowering.expand, lowerReduce, emitSequence, stmt, unrollBody, Stmt.unroll,
              Op.readTiles]
          · simp [Lowering.expand, lowerReduce, emitSequence, stmt, unrollBody, Stmt.unroll,
              Op.readTiles, Lowering.outTile, Lowering.target]

end Item

/-! ## The invariant of the original run -/

/-- **What was stored last is still in its tile.** -/
def Resident (items : List (Item Lowering)) (q : Nat) (s : BodyState) : Prop :=
  ∀ x j l, x.isBuffer = true → x.type.shape.length = 2 → lastStoreTo items x q = some j →
    items[j]? = some (.op l) → s.sram (l.outTile j) = s.ddr x

section Runs

variable {items : List (Item Lowering)} {pairs : List (Value × Value)} {erased : List OpId}
  {ops : TileOps} {q : Nat} {l : Lowering} {s t : BodyState} {is : List Inst}

theorem frame_sram (his : ∀ i ∈ is, LoweredInst q l i) {v : Value} (hv : v ∉ l.tiles q)
    (s : BodyState) : (run ops is s).sram v = s.sram v :=
  run_sram (fun i hi hmem => hv ((his i hi).written.1 v hmem)) s

theorem frame_ddr (his : ∀ i ∈ is, LoweredInst q l i) {v : Value}
    (hv : v ≠ (l.target q).root) (s : BodyState) : (run ops is s).ddr v = s.ddr v :=
  run_ddr (fun i hi hmem => hv ((his i hi).written.2 v hmem)) s

/-- The tile of an earlier item. -/
theorem outTile_not_mem {j : Nat} {l' : Lowering} (hj : j ≠ q) : l'.outTile j ∉ l.tiles q := by
  intro hmem
  obtain ⟨pos, type, heq⟩ := tile_item hmem
  obtain ⟨type', htype⟩ := outTile_eq j l'
  rw [htype] at heq
  cases heq
  exact hj rfl

/-- A buffer of rank 2 that the item does not store to. -/
theorem target_root_ne (h : BufferBody items) (hl : items[q]? = some (.op l)) {x : Value}
    (hrank : x.type.shape.length = 2) (hx : l.target q ≠ x) : x ≠ (l.target q).root := by
  rcases h.target hl with hbuffer | ⟨kind, src, dst, rfl, hbuffer⟩
  · rw [(isBuffer_cases hbuffer).1]
    exact hx.symm
  · rintro rfl
    have hroot : (Lowering.target q (.reduce kind src dst true)).root = dst :=
      (isBuffer_cases hbuffer).1
    rw [hroot] at hrank
    have hv := (h.op hl).1
    simp only [Lowering.verify] at hv
    split at hv
    · rename_i rows cols _
      simp only [Bool.and_eq_true, decide_eq_true_eq, if_true] at hv
      rw [hv.2] at hrank
      cases hrank
    · cases hv

theorem Resident.skip {item : Item Lowering} (hitem : items[q]? = some item)
    (hop : ∀ l, item ≠ .op l) (hres : Resident items q s) : Resident items (q + 1) s := by
  intro x j l hx hrank hj hl
  rw [lastStoreTo_skip hitem] at hj
  · exact hres x j l hx hrank hj hl
  · cases item with
    | op l => exact absurd rfl (hop l)
    | define | ret => rfl

theorem Resident.op (h : BufferBody items) (hl : items[q]? = some (.op l))
    (hres : Resident items q s) :
    Resident items (q + 1) (run ops (unrollBody (l.expand q)) s) := by
  have hlow : ∀ i ∈ unrollBody (l.expand q), LoweredInst q l i := fun i hi =>
    lowered_unrolled h hl hi
  intro x j l' hx hrank hj hl'
  by_cases htarget : l.target q = x
  · -- the item stores to `x` last
    have hjq : j = q := by
      rw [lastStoreTo, if_pos (by simp [hl, Item.storesTo, htarget])] at hj
      cases hj
      rfl
    subst hjq
    rw [hl] at hl'
    cases hl'
    obtain ⟨before, after, hunroll, hafter⟩ := unroll_store j l
    rw [hunroll, run_append, run_cons, run_silent hafter]
    have hroot : (toDDR ⟨j, .castOut⟩ (l.target j)).root = x := by
      rw [htarget]
      exact (isBuffer_cases hx).1
    show _ = (BodyState.setBuffer _ (toDDR ⟨j, .castOut⟩ (l.target j)).root _).ddr x
    rw [hroot, BodyState.setBuffer_self, writeView_whole (isWhole_target h hl _)]
    rfl
  · rw [lastStoreTo_skip hl (decide_eq_false htarget)] at hj
    obtain ⟨hlt, -, -⟩ := lastStoreTo_some hj
    rw [frame_sram hlow (outTile_not_mem (Nat.ne_of_lt hlt)),
      frame_ddr hlow (target_root_ne h hl hrank htarget)]
    exact hres x j l' hx hrank hj hl'

theorem readTiles_compute (hins : l.ins ≠ []) {v : Value}
    (hv : v ∈ (l.compute q false).readTiles) :
    ∃ k x type, l.ins[k]? = some (x, type) ∧ v = tileIn q k type := by
  cases l with
  | matmul => exact absurd rfl hins
  | ewise kind big small out =>
      simp only [Lowering.compute, Op.readTiles, List.mem_cons, List.not_mem_nil, or_false] at hv
      rcases hv with rfl | rfl
      · exact ⟨0, _, _, rfl, rfl⟩
      · exact ⟨1, _, _, rfl, rfl⟩
  | act | reduce =>
      obtain rfl := List.mem_singleton.mp hv
      exact ⟨0, _, _, rfl, rfl⟩

/-- **At the compute operation** a dropped tile holds what replaces it. -/
theorem Resident.compute (hp : ForwardPairs items pairs) (h : BufferBody items)
    (hl : items[q]? = some (.op l)) (hres : Resident items q s) (hins : l.ins ≠ [])
    (his : ∀ i ∈ is, LoweredInst q l i)
    (hload : ∀ (k : Nat) (x : Value) (type : MemRefType), l.ins[k]? = some (x, type) →
      (run ops is s).sram (tileIn q k type) = readView s.ddr (toDDR ⟨q, .castIn k⟩ x))
    {v : Value} (hv : v ∈ (l.compute q false).readTiles) :
    (run ops is s).sram v = (run ops is s).sram (replaceUses pairs v) := by
  obtain ⟨k, x, type, hx, rfl⟩ := readTiles_compute hins hv
  by_cases hf : ∃ j l', Forwards items q k x type j l'
  · obtain ⟨j, l', hf⟩ := hf
    obtain ⟨hlt, -, -⟩ := lastStoreTo_some hf.last
    have hsource := ins_source hx
    have hbuffer := h.source hl hsource
    obtain ⟨rows, cols, hshape⟩ := (Lowering.verify_rank (h.op hl).1).1 x hsource
    have hwhole : (toDDR ⟨q, .castIn k⟩ x).isWhole = true := (isBuffer_cases hbuffer).2.2
    have hroot : (toDDR ⟨q, .castIn k⟩ x).root = x := (isBuffer_cases hbuffer).1
    calc (run ops is s).sram (tileIn q k type)
        = s.ddr x := by rw [hload k x type hx, readView_whole hwhole, hroot]
      _ = s.sram (l'.outTile j) :=
          (hres x j l' hbuffer (by rw [hshape]; rfl) hf.last hf.store).symm
      _ = (run ops is s).sram (l'.outTile j) :=
          (frame_sram his (outTile_not_mem (Nat.ne_of_lt hlt)) s).symm
      _ = (run ops is s).sram (replaceUses pairs (tileIn q k type)) := by
          rw [hp.forward hf]
  · rw [hp.loaded fun x' j l' hf' => ?_]
    obtain ⟨m, hm, hx'⟩ := hf'.load
    rw [hl] at hm
    cases hm
    rw [hx] at hx'
    cases hx'
    exact hf ⟨j, l', hf'⟩

end Runs

/-! ## Whole bodies -/

section Bodies

variable {items : List (Item Lowering)} {pairs : List (Value × Value)} {erased : List OpId}
  {ops : TileOps} {q : Nat} {l : Lowering} {s t : BodyState}

/-- **One item**, before and after the pass. -/
theorem Simulates.expand (hp : ForwardPairs items pairs) (he : ErasedIds items erased)
    (hsafe : SafeToElide items) (h : BufferBody items) (hl : items[q]? = some (.op l))
    (hres : Resident items q s) (hsim : Simulates items s t) :
    Simulates items (Compiler.run ops (unrollBody (l.expand q)) s)
        (Compiler.run ops ((unrollBody (l.expand q)).filterMap (elideEdit items pairs erased)) t)
      ∧ observations ops ((unrollBody (l.expand q)).filterMap (elideEdit items pairs erased)) t
        = (observations ops (unrollBody (l.expand q)) s).filter
          fun o => Kept items erased o.1 := by
  have hlow : ∀ i ∈ unrollBody (l.expand q), LoweredInst q l i := fun i hi =>
    lowered_unrolled h hl hi
  have hitem : ∀ i ∈ unrollBody (l.expand q), ItemInst items i := fun i hi =>
    .op hl (hlow i hi)
  have hreads : ∀ i, LoweredInst q l i → ∀ v ∈ i.op.readTiles, v ∈ l.tiles q := by
    intro i hi v hv
    cases hi with
    | castIn | castOut | expand | tile | sub | load | subLoad | sync | free => cases hv
    | store =>
        obtain rfl := List.mem_singleton.mp hv
        cases l with
        | matmul | ewise | act | reduce => exact List.mem_cons_self
    | @compute pos accumulate hpos =>
        have hoperand : v ∈ (l.compute q accumulate).operands := by
          cases l with
          | matmul => exact hv
          | ewise kind big small out =>
              simp only [Lowering.compute, Op.readTiles, List.mem_cons, List.not_mem_nil,
                or_false] at hv
              rcases hv with rfl | rfl <;> simp [Lowering.compute, Op.operands]
          | act | reduce =>
              obtain rfl := List.mem_singleton.mp hv
              simp [Lowering.compute, Op.operands]
        exact isTile_compute hoperand
  by_cases hins : l.ins = []
  · exact hsim.run hp he hsafe h fun i hi => ⟨hitem i hi, fun v hv =>
      hp.block hl hins (hreads i (hlow i hi) v hv)⟩
  · obtain ⟨before, after, hunroll, hbefore, hafter, hload⟩ := @unroll_compute ops l hins q
    rw [hunroll] at hlow hitem ⊢
    have hmid : (⟨⟨q, .compute⟩, l.compute q false⟩ : Inst)
        ∈ before ++ ⟨⟨q, .compute⟩, l.compute q false⟩ :: after :=
      List.mem_append_right _ List.mem_cons_self
    obtain ⟨hsim₁, hobs₁⟩ : Simulates items (Compiler.run ops before s) _ ∧ _ :=
      hsim.run hp he hsafe h fun i hi => ⟨hitem i (List.mem_append_left _ hi), fun v hv => by
        rw [hbefore i hi] at hv
        cases hv⟩
    have hread : ∀ v ∈ (l.compute q false).readTiles, (Compiler.run ops before s).sram v
        = (Compiler.run ops before s).sram (replaceUses pairs v) := fun v hv =>
      hres.compute hp h hl hins (fun i hi => hlow i (List.mem_append_left _ hi)) (hload s) hv
    obtain ⟨hsim₂, hobs₂⟩ : Simulates items ((l.compute q false).step ops
        (Compiler.run ops before s)) _ ∧ _ := hsim₁.item hp he hsafe h (hitem _ hmid) hread
    obtain ⟨hsim₃, hobs₃⟩ : Simulates items (Compiler.run ops after
        ((l.compute q false).step ops (Compiler.run ops before s))) _ ∧ _ :=
      hsim₂.run hp he hsafe h fun i hi =>
        ⟨hitem i (List.mem_append_right _ (List.mem_cons_of_mem _ hi)), fun v hv => by
          rw [hafter i hi v hv, hp.outTile]⟩
    have hsplit : (before ++ ⟨⟨q, .compute⟩, l.compute q false⟩ :: after).filterMap
          (elideEdit items pairs erased)
        = before.filterMap (elideEdit items pairs erased)
          ++ ((elideEdit items pairs erased ⟨⟨q, .compute⟩, l.compute q false⟩).toList
            ++ after.filterMap (elideEdit items pairs erased)) := by
      rw [List.filterMap_append]
      cases hedit : elideEdit items pairs erased ⟨⟨q, .compute⟩, l.compute q false⟩ with
      | none => rw [List.filterMap_cons_none hedit]; rfl
      | some j => rw [List.filterMap_cons_some hedit]; rfl
    rw [hsplit]
    simp only [run_append, run_cons, observations_append, observations, List.filter_append]
    exact ⟨hsim₃, by rw [hobs₁, hobs₂, hobs₃]⟩

/-- **A converted body**, before and after the pass. -/
theorem Simulates.body (hp : ForwardPairs items pairs) (he : ErasedIds items erased)
    (hsafe : SafeToElide items) (h : BufferBody items) (s : BodyState) :
    Simulates items (Compiler.run ops (unrollBody (expandFrom 0 items)) s)
        (Compiler.run ops ((unrollBody (expandFrom 0 items)).filterMap
          (elideEdit items pairs erased)) s)
      ∧ observations ops ((unrollBody (expandFrom 0 items)).filterMap
          (elideEdit items pairs erased)) s
        = (observations ops (unrollBody (expandFrom 0 items)) s).filter
          fun o => Kept items erased o.1 := by
  have hrun : ∀ (rest : List (Item Lowering)) (q : Nat) (s t : BodyState),
      items.drop q = rest → Resident items q s → Simulates items s t →
      Simulates items (Compiler.run ops (unrollBody (expandFrom q rest)) s)
          (Compiler.run ops ((unrollBody (expandFrom q rest)).filterMap
            (elideEdit items pairs erased)) t)
        ∧ observations ops ((unrollBody (expandFrom q rest)).filterMap
            (elideEdit items pairs erased)) t
          = (observations ops (unrollBody (expandFrom q rest)) s).filter
            fun o => Kept items erased o.1 := by
    intro rest
    induction rest with
    | nil => exact fun q s t _ _ hsim => ⟨hsim, rfl⟩
    | cons item rest ih =>
        intro q s t hrest hres hsim
        have hitem : items[q]? = some item := by
          rw [← List.head?_drop, hrest, List.head?_cons]
        have htail : items.drop (q + 1) = rest := by
          rw [← List.tail_drop, hrest, List.tail_cons]
        -- one item, and what holds after it
        obtain ⟨hres', hsim', hobs⟩ : Resident items (q + 1)
              (Compiler.run ops (unrollBody (item.expand q)) s)
            ∧ Simulates items (Compiler.run ops (unrollBody (item.expand q)) s)
              (Compiler.run ops ((unrollBody (item.expand q)).filterMap
                (elideEdit items pairs erased)) t)
            ∧ observations ops ((unrollBody (item.expand q)).filterMap
                (elideEdit items pairs erased)) t
              = (observations ops (unrollBody (item.expand q)) s).filter
                fun o => Kept items erased o.1 := by
          cases item with
          | op l => exact ⟨hres.op h hitem, hsim.expand hp he hsafe h hitem hres⟩
          | define v =>
              refine ⟨hres.skip hitem (by simp), hsim.run hp he hsafe h fun i hi => ?_⟩
              obtain rfl := List.mem_singleton.mp hi
              exact ⟨.define hitem, by simp [Op.readTiles]⟩
          | ret vs =>
              refine ⟨hres.skip hitem (by simp), hsim.run hp he hsafe h fun i hi => ?_⟩
              obtain rfl := List.mem_singleton.mp hi
              exact ⟨.ret hitem, by simp [Op.readTiles]⟩
        obtain ⟨hsim'', hobs'⟩ := ih (q + 1) _ _ htail hres' hsim'
        have happend : unrollBody (expandFrom q (item :: rest))
            = unrollBody (item.expand q) ++ unrollBody (expandFrom (q + 1) rest) :=
          List.flatMap_append
        rw [happend, List.filterMap_append, run_append, run_append,
          observations_append, observations_append, List.filter_append, hobs, hobs']
        exact ⟨hsim'', rfl⟩
  refine hrun items 0 s s rfl ?_ ⟨fun _ _ => rfl, fun _ _ => rfl⟩
  intro x j l _ _ hj _
  cases hj

end Bodies

/-! ## Sizes -/

section Sizes

variable {items : List (Item Lowering)} {ops : TileOps} {q : Nat} {l : Lowering}
  {s : BodyState}

theorem length_compute (l : Lowering) (q : Nat) (accumulate : Bool) (s : BodyState) :
    (((l.compute q accumulate).step ops s).sram (l.outTile q)).length
      = (l.outTile q).type.numElements := by
  cases l with
  | matmul lhs rhs dst =>
      refine (congrArg List.length (BodyState.setTile_self _ _ _)).trans ?_
      exact ops.matmul_length ..
  | ewise kind big small out =>
      refine (congrArg List.length (BodyState.setTile_self _ _ _)).trans ?_
      exact ops.ewise_length ..
  | act kind src dst =>
      refine (congrArg List.length (BodyState.setTile_self _ _ _)).trans ?_
      exact ops.act_length ..
  | reduce kind src dst reshape =>
      refine (congrArg List.length (BodyState.setTile_self _ _ _)).trans ?_
      exact ops.reduce_length ..

/-- Only compute operations write the result tile. -/
theorem LoweredInst.outTile {i : Inst} (hi : LoweredInst q l i)
    (hw : l.outTile q ∈ i.op.writtenTiles) : ∃ accumulate, i.op = l.compute q accumulate := by
  cases hi with
  | castIn | castOut | expand | tile | sub | sync | free | store => cases hw
  | @load k x t hx =>
      obtain ⟨type, htype⟩ := outTile_eq q l
      rw [htype] at hw
      cases List.mem_singleton.mp hw
  | subLoad hpos hx ht hne => exact absurd (List.mem_singleton.mp hw).symm hne
  | @compute pos accumulate hpos => exact ⟨accumulate, rfl⟩

/-- After the compute operations the result tile is full. -/
theorem length_outTile {is : List Inst} (his : ∀ i ∈ is, LoweredInst q l i)
    (hmem : ∃ i ∈ is, ∃ accumulate, i.op = l.compute q accumulate) (s : BodyState) :
    ((run ops is s).sram (l.outTile q)).length = (l.outTile q).type.numElements := by
  have hkeep : ∀ (js : List Inst) (s : BodyState), (∀ i ∈ js, LoweredInst q l i) →
      (s.sram (l.outTile q)).length = (l.outTile q).type.numElements →
      ((run ops js s).sram (l.outTile q)).length = (l.outTile q).type.numElements := by
    intro js
    induction js with
    | nil => exact fun s _ hs => hs
    | cons i js ih =>
        intro s hjs hs
        refine ih (i.op.step ops s) (fun j hj => hjs j (List.mem_cons_of_mem _ hj)) ?_
        by_cases hw : l.outTile q ∈ i.op.writtenTiles
        · obtain ⟨accumulate, hop⟩ := (hjs i List.mem_cons_self).outTile hw
          rw [hop]
          exact length_compute l q accumulate s
        · rw [Op.step_sram hw]
          exact hs
  obtain ⟨i, hi, accumulate, hop⟩ := hmem
  obtain ⟨before, after, rfl⟩ := List.append_of_mem hi
  rw [run_append, run_cons, hop]
  refine hkeep after _ (fun j hj => ?_) (length_compute l q accumulate _)
  exact his j (List.mem_append_right _ (List.mem_cons_of_mem _ hj))

/-- Every item computes. -/
theorem compute_mem (l : Lowering) (q : Nat) :
    ⟨⟨q, .compute⟩, l.compute q false⟩ ∈ unrollBody (l.expand q) := by
  by_cases hins : l.ins = []
  · cases l with
    | matmul lhs rhs dst =>
        refine List.mem_flatMap.mpr
          ⟨.inst ⟨⟨q, .compute⟩, _⟩, ?_, List.mem_singleton_self _⟩
        refine List.mem_append_left _ (List.mem_append_left _ (List.mem_append_right _ ?_))
        exact List.mem_map_of_mem (by simp [matmulBlock, Lowering.compute])
    | ewise | act | reduce => cases hins
  · obtain ⟨pre, hexpand, -⟩ := expand_eq hins q
    rw [hexpand]
    refine List.mem_flatMap.mpr
      ⟨.inst ⟨⟨q, .compute⟩, _⟩, ?_, List.mem_singleton_self _⟩
    exact List.mem_append_right _ (by simp [emitSequence, stmt])

theorem numElements_root (h : BufferBody items) (hl : items[q]? = some (.op l)) :
    (l.target q).root.type.numElements = (l.outTile q).type.numElements := by
  have hverify := (h.op hl).1
  rw [outTile_type hverify]
  rcases h.target hl with hbuffer | ⟨kind, src, dst, rfl, hbuffer⟩
  · rw [(isBuffer_cases hbuffer).1]
    rfl
  · have hroot : (Lowering.target q (.reduce kind src dst true)).root = dst :=
      (isBuffer_cases hbuffer).1
    rw [hroot]
    simp only [Lowering.verify] at hverify
    split at hverify
    · rename_i rows cols _
      simp only [Bool.and_eq_true, decide_eq_true_eq, if_true] at hverify
      have hdst := hverify.2
      show dst.type.shape.prod = [dst.type.shape.headD 0, 1].prod
      rw [hdst]
      simp
    · cases hverify

theorem BodyState.Sized.op (h : BufferBody items) (hl : items[q]? = some (.op l))
    (hs : s.Sized) : (run ops (unrollBody (l.expand q)) s).Sized := by
  have hlow : ∀ i ∈ unrollBody (l.expand q), LoweredInst q l i := fun i hi =>
    lowered_unrolled h hl hi
  intro v
  by_cases hv : v = (l.target q).root
  · obtain ⟨before, after, hunroll, hafter⟩ := unroll_store q l
    have hcompute : ∃ i ∈ before, ∃ accumulate, i.op = l.compute q accumulate := by
      refine ⟨⟨⟨q, .compute⟩, l.compute q false⟩, ?_, false, rfl⟩
      have hmem := compute_mem l q
      rw [hunroll] at hmem
      rcases List.mem_append.mp hmem with hmem | hmem
      · exact hmem
      · rcases List.mem_cons.mp hmem with heq | hmem
        · cases heq
        · have hsilent := hafter _ hmem
          cases l <;> cases hsilent
    rw [hunroll] at hlow ⊢
    have hfull : ((run ops before s).sram (l.outTile q)).length
        = (l.outTile q).type.numElements :=
      length_outTile (fun i hi => hlow i (List.mem_append_left _ hi)) hcompute s
    rw [run_append, run_cons, run_silent hafter, hv, numElements_root h hl, ← hfull]
    refine congrArg List.length ?_
    refine (BodyState.setBuffer_self _ _ _).trans ?_
    exact writeView_whole (isWhole_target h hl _) _ _
  · rw [frame_ddr hlow hv]
    exact hs v

/-- **A run keeps the sizes of the buffers.** -/
theorem BodyState.Sized.body (h : BufferBody items) (hs : s.Sized) :
    (run ops (unrollBody (expandFrom 0 items)) s).Sized := by
  have hrun : ∀ (rest : List (Item Lowering)) (q : Nat) (s : BodyState),
      items.drop q = rest → s.Sized → (run ops (unrollBody (expandFrom q rest)) s).Sized := by
    intro rest
    induction rest with
    | nil => exact fun q s _ hs => hs
    | cons item rest ih =>
        intro q s hrest hs
        have hitem : items[q]? = some item := by
          rw [← List.head?_drop, hrest, List.head?_cons]
        have htail : items.drop (q + 1) = rest := by
          rw [← List.tail_drop, hrest, List.tail_cons]
        have happend : unrollBody (expandFrom q (item :: rest))
            = unrollBody (item.expand q) ++ unrollBody (expandFrom (q + 1) rest) :=
          List.flatMap_append
        rw [happend, run_append]
        refine ih (q + 1) _ htail ?_
        cases item with
        | op l => exact hs.op h hitem
        | define v => exact hs
        | ret vs => exact hs
  exact hrun items 0 s rfl hs

end Sizes

/-! ## What the pass preserves -/

section Preserves

variable {items : List (Item Lowering)} {pairs : List (Value × Value)} {erased : List OpId}
  {ops : TileOps} {q : Nat} {l : Lowering} {s : BodyState}

theorem observations_id {is : List Inst} {s : BodyState} {o : Observation}
    (ho : o ∈ observations ops is s) : ∃ i ∈ is, i.id = o.1 := by
  induction is generalizing s with
  | nil => cases ho
  | cons i is ih =>
      rcases List.mem_append.mp ho with ho | ho
      · exact ⟨i, List.mem_cons_self, (observe_id ho).symm⟩
      · obtain ⟨j, hj, hid⟩ := ih ho
        exact ⟨j, List.mem_cons_of_mem _ hj, hid⟩

theorem id_of_unrolled {body : List Stmt} {i : Inst} (hi : i ∈ unrollBody body) :
    ∃ j ∈ bodyInsts body, j.id = i.id := by
  obtain ⟨st, hst, hi⟩ := List.mem_flatMap.mp hi
  cases st with
  | inst j => exact ⟨i, List.mem_flatMap.mpr ⟨_, hst, hi⟩, rfl⟩
  | scfFor id lb ub step insts =>
      obtain ⟨n, -, hi⟩ := List.mem_flatMap.mp hi
      obtain ⟨j, hj, rfl⟩ := List.mem_map.mp hi
      exact ⟨j, List.mem_flatMap.mpr ⟨_, hst, hj⟩, rfl⟩

/-- The operations that are left. -/
theorem mem_elided {i' : Inst} :
    i' ∈ bodyInsts (editBody (elideEdit items pairs erased) (expandFrom 0 items))
      ↔ ∃ i ∈ bodyInsts (expandFrom 0 items), Kept items erased i.id = true
        ∧ i' = { i with op := replaceAll pairs i.op } := by
  rw [bodyInsts_editBody, List.mem_filterMap]
  refine exists_congr fun i => and_congr_right fun _ => ?_
  rw [elideEdit_eq]
  by_cases hkept : Kept items erased i.id = true
  · simp [hkept, eq_comm]
  · simp [hkept]

/-- The ids that are left. -/
theorem any_elided {id : OpId} (hid : ∃ i ∈ bodyInsts (expandFrom 0 items), i.id = id) :
    (bodyInsts (editBody (elideEdit items pairs erased) (expandFrom 0 items))).any
      (fun i => i.id = id) = Kept items erased id := by
  rw [Bool.eq_iff_iff, List.any_eq_true]
  constructor
  · rintro ⟨i', hi', heq⟩
    obtain ⟨i, -, hkept, rfl⟩ := mem_elided.mp hi'
    have hid : i.id = id := of_decide_eq_true heq
    rw [← hid]
    exact hkept
  · intro hkept
    obtain ⟨i, hi, rfl⟩ := hid
    exact ⟨_, mem_elided.mpr ⟨i, hi, hkept, rfl⟩, decide_eq_true rfl⟩

/-- Nothing that is left writes an elided buffer. -/
theorem ElidedStore.untouched (hp : ForwardPairs items pairs) (he : ErasedIds items erased)
    (h : BufferBody items) {j : Nat} {x : Value} (hes : ElidedStore items j x) (s : BodyState) :
    (run ops ((unrollBody (expandFrom 0 items)).filterMap
      (elideEdit items pairs erased)) s).ddr x = s.ddr x := by
  refine run_ddr (fun i' hi' hw => ?_) s
  obtain ⟨i, hi, hedit⟩ := List.mem_filterMap.mp hi'
  rw [elideEdit_eq] at hedit
  split_ifs at hedit with hkept
  cases hedit
  obtain ⟨hload, hstore⟩ := of_decide_eq_true hkept
  obtain ⟨q, item, hitem, hi⟩ := mem_expandFrom.mp hi
  rw [Nat.zero_add] at hi
  cases item with
  | define v =>
      obtain rfl := List.mem_singleton.mp hi
      rw [replaceAll_define] at hw
      cases hw
  | ret vs =>
      obtain rfl := List.mem_singleton.mp hi
      rw [replaceAll_eq] at hw
      cases hw
  | op l =>
      have hlow := lowered_unrolled h hitem hi
      rcases hp.stays h hitem hlow hload with
        hsame | ⟨-, accumulate, hop⟩ | ⟨t, t', -, hrep⟩
      · rw [hsame] at hw
        have hx := hlow.written.2 x hw
        rcases h.target hitem with hbuffer | ⟨kind, src, dst, rfl, hbuffer⟩
        · -- a store to `x` is the one that was erased
          have hq := hes.only q l hitem (by rw [hx, (isBuffer_cases hbuffer).1])
          refine hstore ((he i.id).mpr ⟨j, x, hes, ?_⟩)
          rw [← hq]
          cases hlow with
          | store => rfl
          | castIn | castOut | expand | tile | sub | load | subLoad | sync | free => cases hw
          | compute => cases l <;> cases hw
        · rw [show (Lowering.target q (.reduce kind src dst true)).root = dst from
            (isBuffer_cases hbuffer).1] at hx
          rw [← hx] at hitem
          exact hes.notReshaped q kind src hitem
      · rw [hop, replaceAll_eq] at hw
        cases l <;> cases hw
      · rw [hrep] at hw
        cases hw

theorem isBuffer_of_read (h : BufferBody items) {j : Nat} {x : Value}
    (hes : ElidedStore items j x) : x.isBuffer = true := by
  obtain ⟨q, k, l, t, hl, hx⟩ := hes.read
  exact h.source hl (ins_source hx)

theorem SafeToElide.preserved (hsafe : SafeToElide items) (h : BufferBody items)
    (hs : s.Sized) :
    Preserved ops (expandFrom 0 items) (elideCopies (expandFrom 0 items)) s := by
  obtain ⟨pairs, erased, hp, he, helide⟩ := elideCopies_eq h
  obtain ⟨hsim, hobs⟩ : Simulates items (run ops (unrollBody (expandFrom 0 items)) s) _ ∧ _ :=
    Simulates.body hp he hsafe h s
  rw [helide]
  constructor
  · rw [unrollBody_elided hp h he, hobs]
    refine List.filter_congr fun o ho => ?_
    obtain ⟨i, hi, hid⟩ := observations_id ho
    rw [any_elided]
    obtain ⟨j, hj, hji⟩ := id_of_unrolled hi
    exact ⟨j, hj, hji.trans hid⟩
  · intro v hv
    rw [unrollBody_elided hp h he]
    by_cases hes : ElidedBuffer items v
    · -- an elided argument holds nothing
      obtain ⟨j, hes⟩ := hes
      have hzero := (hsafe j v hes).2 hv
      have hbefore : ((run ops (unrollBody (expandFrom 0 items)) s).ddr v).length
          = v.type.numElements := hs.body h v
      rw [hes.untouched hp he h s, List.eq_nil_of_length_eq_zero ((hs v).trans hzero),
        List.eq_nil_of_length_eq_zero (hbefore.trans hzero)]
    · exact (hsim.ddr v hes).symm

theorem SafeToElide.erasedUnread (hsafe : SafeToElide items) (h : BufferBody items) :
    ErasedUnread (expandFrom 0 items) (elideCopies (expandFrom 0 items)) := by
  obtain ⟨pairs, erased, hp, he, helide⟩ := elideCopies_eq h
  rw [helide]
  intro store hstore src dst hop hgone load hload view tile hview
  -- the store was erased
  have herased : ¬ Kept items erased store.id = true := fun hkept =>
    hgone _ (mem_elided.mpr ⟨store, hstore, hkept, rfl⟩) rfl
  obtain ⟨j, l, hl, rfl⟩ : ∃ j l, items[j]? = some (.op l) ∧ store = storeInst j l := by
    cases itemInst_of_mem hstore with
    | define | ret => cases hop
    | @op j l i hl hlow =>
        cases hlow with
        | castIn | castOut | expand | tile | sub | load | subLoad | sync | free => cases hop
        | compute => cases l <;> cases hop
        | store => exact ⟨j, l, hl, rfl⟩
  cases hop
  have hid : (storeInst j l).id ∈ erased := by
    by_contra hnot
    exact herased (decide_eq_true ⟨not_mem_forwardedIds h (by simp [storeInst]), hnot⟩)
  obtain ⟨j', x, hes, heq⟩ := (he _).mp hid
  cases heq
  have hes := (exists_elidedStore hl).mp ⟨x, hes⟩
  have hroot : (toDDR ⟨j, .castOut⟩ (l.target j)).root = l.target j :=
    (isBuffer_cases (isBuffer_of_read h hes)).1
  rw [hroot]
  -- and the load is of a block, or was not forwarded
  obtain ⟨i, hi, hkept, rfl⟩ := mem_elided.mp hload
  obtain ⟨hkload, -⟩ := of_decide_eq_true hkept
  cases itemInst_of_mem hi with
  | define =>
      rw [replaceAll_define] at hview
      cases hview
  | ret =>
      rw [replaceAll_eq] at hview
      cases hview
  | @op q m i hm hlow =>
      rcases hp.stays h hm hlow hkload with
        hsame | ⟨-, accumulate, hcompute⟩ | ⟨t, t', -, hrep⟩
      · rw [show replaceAll pairs i.op = i.op from hsame] at hview
        cases hlow with
        | castIn | castOut | expand | tile | sub | sync | store | free => cases hview
        | compute => cases m <;> cases hview
        | @load k y type hy =>
            cases hview
            rw [show (toDDR _ y).root = y from (isBuffer_cases (h.source hm (ins_source hy))).1]
            rintro rfl
            obtain ⟨l', hf⟩ := hes.forwards hm hy
            exact not_forwards h hkload _ _ _ _ hf
        | @subLoad pos pos' k y tile offsets sizes strides hpos hy ht hne =>
            cases hview
            rw [show (Value.subView _ (toDDR _ y) _ _ _).root = y from
              (isBuffer_cases (h.source hm (blocks_source hy))).1]
            rintro rfl
            exact (hsafe j _ hes).1 q m hm hy
      · rw [hcompute, replaceAll_eq] at hview
        cases m <;> cases hview
      · rw [hrep] at hview
        cases hview

end Preserves

/-! ## When it does not -/

section Violates

variable {items : List (Item Lowering)} {ops : TileOps}

/-- A matmul that reads an elided buffer loads what was never stored. -/
theorem not_blocks_of_erasedUnread (h : BufferBody items)
    (hunread : ErasedUnread (expandFrom 0 items) (elideCopies (expandFrom 0 items))) {j : Nat}
    {x : Value} (hes : ElidedStore items j x) {q : Nat} {l : Lowering}
    (hl : items[q]? = some (.op l)) : x ∉ l.blocks := by
  intro hx
  obtain ⟨pairs, erased, hp, he, helide⟩ := elideCopies_eq h
  rw [helide] at hunread
  obtain ⟨m, hm, htarget⟩ := hes.store
  have hroot : x.root = x := (isBuffer_cases (isBuffer_of_read h hes)).1
  have hins : l.ins = [] := by
    cases l with
    | matmul => rfl
    | ewise | act | reduce => cases hx
  -- the load of the matmul is left
  obtain ⟨k, view, tile, hmem, hview⟩ := mem_subLoad (p := q) hx
  have hload : (⟨⟨q, .load k⟩, .dmaLoad view tile⟩ : Inst)
      ∈ bodyInsts (editBody (elideEdit items pairs erased) (expandFrom 0 items)) := by
    rw [bodyInsts_editBody, List.mem_filterMap]
    exact ⟨_, mem_body hl hmem,
      elideEdit_block hp h he hl hins (lowered_bodyInsts hmem) (by simp)⟩
  -- the store is not
  have hgone : ∀ i ∈ bodyInsts (editBody (elideEdit items pairs erased) (expandFrom 0 items)),
      i.id ≠ (storeInst j m).id := by
    intro i hi heq
    obtain ⟨i₀, -, hkept, rfl⟩ := mem_elided.mp hi
    have hid : i₀.id = ⟨j, .store⟩ := heq
    rw [hid] at hkept
    exact (of_decide_eq_true hkept).2 ((he _).mpr ⟨j, x, hes, rfl⟩)
  refine hunread (storeInst j m) (mem_body hm (mem_store j m).2) _ _ rfl hgone _ hload _ _ rfl ?_
  show view.root = (toDDR ⟨j, .castOut⟩ (m.target j)).root
  rw [hview, htarget]
  rfl

/-- What an item that does not read `x` and the items before it do is the same
whatever `x` holds. -/
theorem avoids_of_not_read (h : BufferBody items) {q : Nat} {l : Lowering} {x : Value}
    (hl : items[q]? = some (.op l))
    (hread : ∀ (k : Nat) (t : MemRefType), l.ins[k]? ≠ some (x, t))
    (hblocks : x ∉ l.blocks) {i : Inst} (hi : LoweredInst q l i) :
    i.op.Avoids (· = x) (fun _ => False) := by
  cases hi with
  | castIn | castOut | expand | tile | sub | sync | free =>
      exact ⟨by simp [Op.readBuffers], fun _ _ => id, by simp⟩
  | @load k y type hy =>
      refine ⟨fun v hv heq => ?_, fun _ _ => id, by simp [loadInst]⟩
      obtain rfl := List.mem_singleton.mp hv
      rw [show (toDDR _ y).root = y from (isBuffer_cases (h.source hl (ins_source hy))).1] at heq
      subst heq
      exact hread k type hy
  | @subLoad pos pos' k y tile offsets sizes strides hpos hy ht hne =>
      refine ⟨fun v hv heq => ?_, fun _ _ => id, by simp⟩
      obtain rfl := List.mem_singleton.mp hv
      rw [show (Value.subView _ (toDDR _ y) _ _ _).root = y from
        (isBuffer_cases (h.source hl (blocks_source hy))).1] at heq
      subst heq
      exact hblocks hy
  | compute =>
      refine ⟨fun v hv => ?_, fun _ _ => id, fun src dst heq => ?_⟩
      · cases l <;> cases hv
      · cases l <;> cases heq
  | store =>
      refine ⟨by simp [Op.readBuffers, storeInst], fun _ _ => id, fun src dst heq => ?_⟩
      cases heq
      exact isWhole_target h hl _

/-- **What is stored to an elided buffer does not depend on what it held.** -/
theorem ElidedStore.stored (h : BufferBody items) {j : Nat} {x : Value}
    (hes : ElidedStore items j x)
    (hblocks : ∀ (q : Nat) (l : Lowering), items[q]? = some (.op l) → x ∉ l.blocks)
    {s t : BodyState} (hst : SameOff (· = x) (fun _ => False) s t) :
    (run ops (unrollBody (expandFrom 0 items)) s).ddr x
      = (run ops (unrollBody (expandFrom 0 items)) t).ddr x := by
  have hwhole : ∀ {q : Nat} {l : Lowering}, items[q]? = some (.op l) →
      ∀ i, LoweredInst q l i → i.op.Avoids (fun _ => False) (fun _ => False) := by
    intro q l hl i hi
    refine ⟨fun _ _ => id, fun _ _ => id, fun src dst heq => ?_⟩
    cases hi with
    | castIn | castOut | expand | tile | sub | load | subLoad | sync | free => cases heq
    | compute => cases l <;> cases heq
    | store =>
        cases heq
        exact isWhole_target h hl _
  -- up to the store the runs differ in `x`, afterwards nowhere
  have hrun : ∀ (rest : List (Item Lowering)) (q : Nat) (s t : BodyState),
      items.drop q = rest → SameOff (fun v => q ≤ j ∧ v = x) (fun _ => False) s t →
      SameOff (fun v => q + rest.length ≤ j ∧ v = x) (fun _ => False)
        (run ops (unrollBody (expandFrom q rest)) s)
        (run ops (unrollBody (expandFrom q rest)) t) := by
    intro rest
    induction rest with
    | nil => exact fun q s t _ hst => hst
    | cons item rest ih =>
        intro q s t hrest hst
        have hitem : items[q]? = some item := by
          rw [← List.head?_drop, hrest, List.head?_cons]
        have htail : items.drop (q + 1) = rest := by
          rw [← List.tail_drop, hrest, List.tail_cons]
        have happend : unrollBody (expandFrom q (item :: rest))
            = unrollBody (item.expand q) ++ unrollBody (expandFrom (q + 1) rest) :=
          List.flatMap_append
        rw [happend, run_append, run_append, List.length_cons, Nat.add_comm rest.length,
          ← Nat.add_assoc]
        refine ih (q + 1) _ _ htail ?_
        have hskip : q ≠ j → SameOff (fun v => q + 1 ≤ j ∧ v = x) (fun _ => False) s t :=
          fun hne => ⟨fun v hv => hst.ddr v fun hq => hv ⟨by omega, hq.2⟩, hst.sram⟩
        cases item with
        | define v =>
            refine hskip ?_
            rintro rfl
            obtain ⟨l, hl, -⟩ := hes.store
            rw [hitem] at hl
            cases hl
        | ret vs =>
            refine hskip ?_
            rintro rfl
            obtain ⟨l, hl, -⟩ := hes.store
            rw [hitem] at hl
            cases hl
        | op l =>
            have hlow : ∀ i ∈ unrollBody (l.expand q), LoweredInst q l i := fun i hi =>
              lowered_unrolled h hitem hi
            have hread : q ≤ j → ∀ (k : Nat) (t : MemRefType), l.ins[k]? ≠ some (x, t) := by
              intro hq k t hx
              have := hes.readAfter q k l t hitem hx
              omega
            show SameOff _ _ (run ops (unrollBody (l.expand q)) s)
              (run ops (unrollBody (l.expand q)) t)
            rcases Nat.lt_trichotomy q j with hq | rfl | hq
            · have hsame : (fun v => q + 1 ≤ j ∧ v = x) = (· = x) := by
                funext v
                simp only [eq_iff_iff, and_iff_right_iff_imp]
                omega
              have hx : SameOff (· = x) (fun _ => False) s t :=
                ⟨fun v hv => hst.ddr v fun hq => hv hq.2, hst.sram⟩
              rw [hsame]
              exact (hx.run fun i hi => avoids_of_not_read h hitem
                (hread (Nat.le_of_lt hq)) (hblocks q l hitem) (hlow i hi)).1
            · obtain ⟨before, after, hunroll, hafter⟩ := unroll_store q l
              rw [hunroll] at hlow ⊢
              have hx : SameOff (· = x) (fun _ => False) s t :=
                ⟨fun v hv => hst.ddr v fun hq => hv hq.2, hst.sram⟩
              obtain ⟨hbefore, -⟩ :
                  SameOff (· = x) (fun _ => False) (run ops before s) _ ∧ _ :=
                hx.run fun i hi => avoids_of_not_read h hitem (hread (Nat.le_refl q))
                  (hblocks q l hitem) (hlow i (List.mem_append_left _ hi))
              rw [run_append, run_append, run_cons, run_cons, run_silent hafter,
                run_silent hafter]
              obtain ⟨m, hm, htarget⟩ := hes.store
              rw [hitem] at hm
              cases hm
              have hroot : (toDDR ⟨q, .castOut⟩ (l.target q)).root = x := by
                rw [htarget]
                exact (isBuffer_cases (isBuffer_of_read h hes)).1
              refine ⟨fun v _ => ?_, fun v hv => hbefore.sram v hv⟩
              show (BodyState.setBuffer _ (toDDR ⟨q, .castOut⟩ (l.target q)).root _).ddr v
                = (BodyState.setBuffer _ (toDDR ⟨q, .castOut⟩ (l.target q)).root _).ddr v
              rw [hroot, writeView_whole (isWhole_target h hitem _),
                writeView_whole (isWhole_target h hitem _), hbefore.sram _ id]
              by_cases hv : v = x
              · rw [hv, BodyState.setBuffer_self, BodyState.setBuffer_self]
              · rw [BodyState.setBuffer_ne _ _ hv, BodyState.setBuffer_ne _ _ hv,
                  hbefore.ddr v hv]
            · have hagree : SameOff (fun _ => False) (fun _ => False) s t :=
                ⟨fun v _ => hst.ddr v fun hle => by omega, hst.sram⟩
              obtain ⟨hrun, -⟩ : SameOff (fun _ => False) (fun _ => False)
                  (run ops (unrollBody (l.expand q)) s) _ ∧ _ :=
                hagree.run fun i hi => hwhole hitem i (hlow i hi)
              exact ⟨fun v _ => hrun.ddr v id, hrun.sram⟩
  have hj : j < items.length := by
    obtain ⟨l, hl, -⟩ := hes.store
    exact (List.getElem?_eq_some_iff.mp hl).1
  have hend := hrun items 0 s t rfl
    ⟨fun v hv => hst.ddr v fun heq => hv ⟨by omega, heq⟩, hst.sram⟩
  exact hend.ddr x fun hle => by omega

/-- All buffers hold one value everywhere. -/
def constantState (n : UInt16) : BodyState :=
  { ddr := fun v => List.replicate v.type.numElements n, sram := fun _ => [] }

theorem constantState_sized (n : UInt16) : (constantState n).Sized :=
  fun _ => List.length_replicate

/-- An argument that is elided keeps what it held before. -/
theorem empty_of_preserved (h : BufferBody items)
    (hargs : ∀ s : BodyState, s.Sized → ∀ v : Value, v.isBlockArg = true →
      (run ops (unrollBody (elideCopies (expandFrom 0 items))) s).ddr v
        = (run ops (unrollBody (expandFrom 0 items)) s).ddr v) {j : Nat} {x : Value}
    (hes : ElidedStore items j x)
    (hblocks : ∀ (q : Nat) (l : Lowering), items[q]? = some (.op l) → x ∉ l.blocks)
    (hx : x.isBlockArg = true) : x.type.numElements = 0 := by
  obtain ⟨pairs, erased, hp, he, helide⟩ := elideCopies_eq h
  rw [helide, unrollBody_elided hp h he] at hargs
  -- two contents of `x` that the original run cannot tell apart
  let zeros := constantState 0
  let ones : BodyState := zeros.setBuffer x (List.replicate x.type.numElements 1)
  have hones : ones.Sized := by
    intro v
    by_cases hv : v = x
    · rw [hv]
      exact (congrArg List.length (BodyState.setBuffer_self _ _ _)).trans List.length_replicate
    · exact (congrArg List.length (BodyState.setBuffer_ne _ _ hv)).trans
        List.length_replicate
  have hagree : SameOff (· = x) (fun _ => False) zeros ones :=
    ⟨fun v hv => (BodyState.setBuffer_ne _ _ hv).symm, fun _ _ => rfl⟩
  have hkept : zeros.ddr x = ones.ddr x := by
    calc zeros.ddr x
        = (run ops (unrollBody (expandFrom 0 items)) zeros).ddr x := by
          rw [← hargs zeros (constantState_sized 0) x hx, hes.untouched hp he h]
      _ = (run ops (unrollBody (expandFrom 0 items)) ones).ddr x := hes.stored h hblocks hagree
      _ = ones.ddr x := by rw [← hargs ones hones x hx, hes.untouched hp he h]
  by_contra hne
  have hval : List.replicate x.type.numElements (0 : UInt16)
      = List.replicate x.type.numElements 1 :=
    hkept.trans (BodyState.setBuffer_self _ _ _)
  rw [List.replicate_inj] at hval
  rcases hval.2 with hzero | hbits
  · exact hne hzero
  · cases hbits

end Violates

/-- **The pass preserves meaning exactly when it is safe to elide**: every buffer
that is returned, loaded afterwards or an argument keeps its contents, and a store
is erased only when no load that is left reads its buffer. -/
theorem elideCopies_preserves_iff {items : List (Item Lowering)} (h : BufferBody items)
    (ops : TileOps) :
    ((∀ s : BodyState, s.Sized →
        Preserved ops (expandFrom 0 items) (elideCopies (expandFrom 0 items)) s)
      ∧ ErasedUnread (expandFrom 0 items) (elideCopies (expandFrom 0 items)))
    ↔ SafeToElide items := by
  constructor
  · rintro ⟨hpreserved, hunread⟩ j x hes
    have hblocks : ∀ (q : Nat) (l : Lowering), items[q]? = some (.op l) → x ∉ l.blocks :=
      fun q l hl => not_blocks_of_erasedUnread h hunread hes hl
    exact ⟨hblocks, empty_of_preserved h (fun s hs => (hpreserved s hs).args) hes hblocks⟩
  · intro hsafe
    exact ⟨fun s hs => hsafe.preserved h hs, hsafe.erasedUnread h⟩

/-! ### Two chains -/

/-- Every operation fills its result with one value. -/
def constantOps (n : UInt16) : TileOps where
  matmul _ _ dst _ _ _ _ _ _ := List.replicate dst.numElements n
  ewise _ _ _ dst _ _ := List.replicate dst.numElements n
  act _ _ dst _ := List.replicate dst.numElements n
  reduce _ _ dst _ := List.replicate dst.numElements n
  index _ _ dst _ := List.replicate dst.numElements n
  matmul_length _ _ _ _ _ _ _ _ _ := List.length_replicate
  ewise_length _ _ _ _ _ _ := List.length_replicate
  act_length _ _ _ _ := List.length_replicate
  reduce_length _ _ _ _ := List.length_replicate

/-- Argument `k` of the function. -/
def chainArg (k rows cols : Nat) : Value := .blockArg 0 k (f16Type rows cols)

/-- A buffer of the function. -/
def chainAlloc (k rows cols : Nat) : Value := .alloc ⟨k, .user 0⟩ (f16Type rows cols) none

/-- `y = exp (exp a)`. -/
def expChain : List (Item Lowering) :=
  [.define (chainAlloc 0 1 16),
    .op (.act .EXP (chainArg 0 1 16) (chainAlloc 0 1 16)),
    .define (chainAlloc 2 1 16),
    .op (.act .EXP (chainAlloc 0 1 16) (chainAlloc 2 1 16)),
    .ret [chainAlloc 2 1 16]]

theorem safeToElide_expChain : SafeToElide expChain := by
  have hops : ∀ (q : Nat) (l : Lowering), expChain[q]? = some (.op l) →
      l.blocks = [] ∧ (l.target q).isBlockArg = false := by
    intro q l hl
    rcases q with _ | _ | _ | _ | _ | q <;> cases hl
    · exact ⟨rfl, rfl⟩
    · exact ⟨rfl, rfl⟩
  intro i x hes
  obtain ⟨l, hl, rfl⟩ := hes.store
  refine ⟨fun q m hm => ?_, fun harg => ?_⟩
  · rw [(hops q m hm).1]
    exact List.not_mem_nil
  · rw [(hops i l hl).2] at harg
    cases harg

/-- Here the store of the inner `exp` is erased. -/
theorem elidedStore_expChain : ElidedStore expChain 1 (chainAlloc 0 1 16) := by
  refine ⟨⟨_, rfl, rfl⟩, ?_, ?_, ?_, ⟨3, 0, _, _, rfl, rfl⟩, ?_⟩
  · intro q l hl htarget
    rcases q with _ | _ | _ | _ | _ | q <;> cases hl
    · rfl
    · cases htarget
  · intro q kind src hq
    rcases q with _ | _ | _ | _ | _ | q <;> cases hq
  · intro q vs hq
    rcases q with _ | _ | _ | _ | _ | q <;> cases hq
    decide
  · intro q k l t hl hx
    rcases q with _ | _ | _ | _ | _ | q <;> cases hl
    · rcases k with _ | k <;> cases hx
    · decide

theorem elideCopies_preserves_iff_expChain :
    ElidedStore expChain 1 (chainAlloc 0 1 16)
      ∧ (∀ s : BodyState, s.Sized →
          Preserved (constantOps 1) (expandFrom 0 expChain) (elideCopies (expandFrom 0 expChain)) s)
      ∧ ErasedUnread (expandFrom 0 expChain) (elideCopies (expandFrom 0 expChain)) :=
  ⟨elidedStore_expChain,
    (elideCopies_preserves_iff (by decide) (constantOps 1)).mpr safeToElide_expChain⟩

/-- `x = exp a`, `y = exp x`, `z = x · b`. -/
def sharedChain : List (Item LinalgOp) :=
  [.define (chainAlloc 0 1 16),
    .op (.exp (chainArg 0 1 16) (chainAlloc 0 1 16)),
    .define (chainAlloc 2 1 16),
    .op (.exp (chainAlloc 0 1 16) (chainAlloc 2 1 16)),
    .define (chainAlloc 4 1 1),
    .op (.matmul (chainAlloc 0 1 16) (chainArg 1 16 1) (chainAlloc 4 1 1)),
    .ret [chainAlloc 2 1 16, chainAlloc 4 1 1]]

/-- **A matmul loads a buffer whose store was erased.** -/
theorem elided_store_is_loaded : ∃ items, convertItems sharedChain = some items
    ∧ BufferBody items ∧ (constantState 0).Sized
    ∧ ¬ Preserved (constantOps 1) (expandFrom 0 items) (elideCopies (expandFrom 0 items))
      (constantState 0)
    ∧ ¬ ErasedUnread (expandFrom 0 items) (elideCopies (expandFrom 0 items)) := by
  refine ⟨_, rfl, by decide, constantState_sized 0, fun h => ?_, fun h => ?_⟩
  · have hpoints := h.points
    revert hpoints
    decide +kernel
  · exact h (storeInst 1 (.act .EXP (chainArg 0 1 16) (chainAlloc 0 1 16))) (by decide +kernel)
      _ _ rfl (by decide +kernel)
      ⟨⟨5, .load 0⟩, .dmaLoad (subLhs 5 (.subIn 0) (chainAlloc 0 1 16) (.const 0))
        (lhsTile 5 (chainAlloc 0 1 16))⟩ (by decide +kernel) _ _ rfl rfl

end EclipseNpu.Compiler

import EclipseNpu.Compiler.Divisions
import EclipseNpu.Compiler.LawfulBody
import EclipseNpu.Compiler.ReduceSound

/-!
# Compiler — Pipeline

From the lowered operations of a function to the result of its `.easm` stream: their
sequences, copy elision, MLIR's canonicalizer, allocation and emission, and the stream
on the simulator. The stream stops early exactly when a lowered division meets a zero;
otherwise every buffer but the elided ones holds the tensor the lowered operations mean
(`compile_correct`).
-/

namespace EclipseNpu.Compiler

open EclipseNpu.Lib EclipseNpu.Runtime

/-! ## Layouts -/

section Layouts

variable {layout : Layout} {module : Module} {v w : Value} {a b : UInt32}

theorem sramAddr?_mem (h : layout.sramAddr? v = some a) : (v, a) ∈ sramBuffers layout := by
  unfold Layout.sramAddr? at h
  split at h
  · rename_i hfind
    cases h
    exact mem_sramBuffers.mpr (mem_of_find hfind)
  · cases h

theorem ddrBaseAddr_mem (h : ddrBaseAddr layout v = some a) : (v, a) ∈ ddrBuffers layout := by
  unfold ddrBaseAddr at h
  split at h
  · rename_i hfind
    cases h
    exact mem_ddrBuffers.mpr (mem_of_find hfind)
  · cases h

/-- Words of a buffer are bytes of it. -/
theorem words_le (t : MemRefType) : t.words * 2 ≤ t.sizeInBytes :=
  Nat.div_mul_le_self t.sizeInBytes 2

theorem arraysApart_of_apart (h : Apart (v, a) (w, b)) (hv : 0 < v.type.words)
    (hw : 0 < w.type.words) : ArraysApart a.toNat v.type.words b.toNat w.type.words := by
  have hvle := words_le v.type
  have hwle := words_le w.type
  by_contra hnot
  unfold ArraysApart at hnot
  refine h (max a.toNat b.toNat) ⟨?_, ?_⟩ ⟨?_, ?_⟩ <;> dsimp only <;> omega

/-- **A bump allocation that fits is one the stream can run on.** -/
theorem placed_of_fits (halloc : eclipseAllocate .bump module = some layout)
    (hddr : SizesFit module) (hsram : SramFits module) : layout.Placed := by
  have hok := sramLayoutOk_of_fits halloc hsram
  have hbuffers := ddrBuffers_eq halloc
  have hslot : ∀ v a, ddrBaseAddr layout v = some a → ∃ j,
      (ddrValues module)[j]? = some v ∧ a = slotAddr ddrStart j := by
    intro v a hv
    have hmem := ddrBaseAddr_mem hv
    rw [hbuffers] at hmem
    obtain ⟨j, hj⟩ := List.mem_iff_getElem?.mp hmem
    obtain ⟨w, hw, heq⟩ := numbered_get.mp hj
    cases heq
    exact ⟨j, hw, rfl⟩
  constructor
  · intro v a hv
    obtain ⟨hlo, hhi⟩ := hok.inside _ (sramAddr?_mem hv)
    have hle := words_le v.type
    exact ⟨hlo, by dsimp only at hhi; omega⟩
  · exact fun v a hv => hok.aligned _ (sramAddr?_mem hv)
  · intro v w a b hne hv hw hvpos hwpos
    have hapart : Apart (v, a) (w, b) :=
      hok.disjoint.forall (sramAddr?_mem hv) (sramAddr?_mem hw) fun heq => by
        cases heq
        exact hne rfl
    exact arraysApart_of_apart hapart hvpos hwpos
  · intro v a hv hpos
    obtain ⟨j, hj, rfl⟩ := hslot v a hv
    have hle := words_le v.type
    obtain ⟨haddr, hend⟩ := hddr.addr hj (by omega)
    have hstart : ddrStart.toNat = 0x40010000 := rfl
    have hbase : DDR_ADDR.toNat = 0x40000000 := rfl
    rw [haddr]
    refine ⟨⟨by omega, ?_⟩, by omega, by omega⟩
    rw [ddrEnd_eq]
    omega
  · intro v w a b hne hv hw hvpos hwpos
    obtain ⟨i, hi, rfl⟩ := hslot v a hv
    obtain ⟨j, hj, rfl⟩ := hslot w b hw
    have hij : i ≠ j := by
      rintro rfl
      rw [hi] at hj
      cases hj
      exact hne rfl
    exact arraysApart_of_apart (fun x hx hy => hddr.apart hi hj hij hx hy) hvpos hwpos

/-- Buffers of at most one slot each. -/
theorem sizesFit_of_small (hlen : (ddrSizes module).length ≤ 32767)
    (hsize : ∀ size ∈ ddrSizes module, size ≤ 0x10000) : SizesFit module := by
  have hslot : ∀ {j size : Nat}, (ddrSizes module)[j]? = some size →
      slotOf j = j ∧ j < 32767 ∧ size ≤ 0x10000 := by
    intro j size hj
    have hlt := (List.getElem?_eq_some_iff.mp hj).1
    exact ⟨Nat.mod_eq_of_lt (by omega), by omega, hsize size (List.mem_of_getElem? hj)⟩
  constructor
  · have hle : (argValues 0 module).length ≤ (ddrValues module).length := by
      rw [ddrValues, List.length_append]
      exact Nat.le_add_right _ _
    rw [ddrSizes, List.length_map] at hlen
    exact hle.trans hlen
  · intro j size hj _
    obtain ⟨heq, hlt, hle⟩ := hslot hj
    omega
  · intro i j sizeI sizeJ hi hj hij _ _ hle
    obtain ⟨heqI, -, hleI⟩ := hslot hi
    obtain ⟨heqJ, -, -⟩ := hslot hj
    omega

end Layouts

/-! ## The canonicalizer -/

/-- What the canonicalizer may drop. -/
def Op.isDefinition : Op → Bool
  | .define _ | .dealloc _ => true
  | _ => false

/-- The casts a view is made through. -/
def Value.casts : Value → List Value
  | .memorySpaceCast id s m => .memorySpaceCast id s m :: s.casts
  | .subView _ s _ _ _ | .expandShape _ s _ => s.casts
  | _ => []

/-- The operations with an effect. -/
def effects (insts : List Inst) : List Inst := insts.filter fun i => !i.op.isDefinition

/-- **`--canonicalize` on a body**: only definitions and frees go, and the casts that
what is left works through stay. -/
structure Canonicalized (body body' : List Stmt) : Prop where
  kept : effects (unrollBody body') = effects (unrollBody body)
  defined : ∀ i ∈ effects (unrollBody body'), ∀ v ∈ i.op.operands, ∀ c ∈ v.casts,
    ∃ j ∈ bodyInsts body', j.op = .define c

section Effects

variable {F : Type} [Fp32 F] {is : List Inst} {s : BodyState}

theorem isDefinition_silent {op : Op} (h : op.isDefinition = true) : op.isSilent = true := by
  cases op with
  | define | dealloc => rfl
  | _ => cases h

theorem mem_effects {i : Inst} : i ∈ effects is ↔ i ∈ is ∧ i.op.isDefinition = false := by
  rw [effects, List.mem_filter, Bool.not_eq_true']

/-- Definitions and frees change nothing. -/
theorem run_effects (ops : TileOps) (is : List Inst) (s : BodyState) :
    run ops (effects is) s = run ops is s := by
  induction is generalizing s with
  | nil => rfl
  | cons i is ih =>
      rw [effects, List.filter_cons]
      cases hdef : i.op.isDefinition with
      | true =>
          rw [run_cons, Op.step_silent (isDefinition_silent hdef)]
          exact ih s
      | false => exact ih (i.op.step ops s)

theorem divisorsNonzero_effects :
    DivisorsNonzero F (effects is) s ↔ DivisorsNonzero F is s := by
  induction is generalizing s with
  | nil => exact Iff.rfl
  | cons i is ih =>
      rw [effects, List.filter_cons]
      cases hdef : i.op.isDefinition with
      | true =>
          have hdiv : i.op.DivisorsNonzero F s := by
            cases hop : i.op with
            | define | dealloc => trivial
            | _ =>
                rw [hop] at hdef
                cases hdef
          rw [DivisorsNonzero, Op.step_silent (isDefinition_silent hdef)]
          exact ih.trans (and_iff_right hdiv).symm
      | false => exact and_congr_right fun _ => ih

end Effects

/-! ## Sources -/

section Sources

variable {args : List (Option MemRefType)} {body' : List Stmt} {layout : Layout}
  {items : List (Item Lowering)} {q : Nat} {l : Lowering}

/-- An argument or an alloc. -/
def Value.isOwned (v : Value) : Bool := v.isBlockArg || v.isAlloc

/-- A cast to memory space 1 binds an alloc to DDR. -/
theorem isSource_of_cast {module : Module} (halloc : eclipseAllocate .bump module = some layout)
    {x : Value} (hx : x.isOwned = true) {id : OpId}
    (hdef : ∃ j ∈ moduleInsts module, j.op = .define (toDDR id x)) :
    layout.isSource x = true := by
  rw [Layout.isSource, Bool.or_eq_true]
  rcases (Bool.or_eq_true _ _).mp hx with harg | halloc'
  · exact .inl harg
  · refine .inr ?_
    rw [Layout.isAllocOp, halloc', Bool.true_and, Option.isNone_iff_eq_none]
    by_contra hsome
    obtain ⟨a, ha⟩ := Option.ne_none_iff_exists'.mp hsome
    have hsram := (List.mem_filter.mp ((sramAddr_iff halloc).mp ⟨a, ha⟩)).2
    rw [isSRAM, Bool.and_eq_true, List.all_eq_true] at hsram
    obtain ⟨j, hj, hop⟩ := hdef
    have huse := hsram.2 j (mem_users.mpr ⟨hj, by rw [hop]; exact List.mem_singleton_self x⟩)
    rw [hop] at huse
    simp [toDDR] at huse

/-- A transfer that is kept works through casts that are kept. -/
theorem Canonicalized.source {body : List Stmt} (hcanon : Canonicalized body body')
    (halloc : eclipseAllocate .bump [⟨args, body'⟩] = some layout) {x view tile : Value}
    (hx : x.isOwned = true) (id : OpId) {id' : OpId} (hview : toDDR id x ∈ view.casts)
    (hmem : ⟨id', .dmaLoad view tile⟩ ∈ unrollBody body) : layout.isSource x = true := by
  have heff : ⟨id', .dmaLoad view tile⟩ ∈ effects (unrollBody body') := by
    rw [hcanon.kept]
    exact mem_effects.mpr ⟨hmem, rfl⟩
  obtain ⟨j, hj, hop⟩ := hcanon.defined _ heff view List.mem_cons_self _ hview
  refine isSource_of_cast halloc hx ⟨j, ?_, hop⟩
  rw [moduleInsts, List.flatMap_singleton]
  exact hj

/-- The loads of an item that loads whole buffers. -/
theorem load_unrolled {k : Nat} {x : Value} {t : MemRefType} (hx : l.ins[k]? = some (x, t)) :
    loadInst q k x t ∈ unrollBody (l.expand q) := by
  obtain ⟨st, hst, hi⟩ := List.mem_flatMap.mp (mem_load (p := q) hx).2
  refine List.mem_flatMap.mpr ⟨st, hst, ?_⟩
  cases st with
  | inst j => exact hi
  | scfFor id lb ub step body =>
      have hins : l.ins = [] := (lowered_of_mem hst).1
      rw [hins] at hx
      cases hx

/-- The loads of the first K block. -/
theorem block_unrolled {lhs rhs dst : Value}
    (hv : (Lowering.matmul lhs rhs dst).verify = true) (hl : lhs.isBuffer = true)
    (hr : rhs.isBuffer = true) :
    ⟨⟨q, .load 0⟩, .dmaLoad (subLhs q (.subIn 0) lhs (.const (0 * tileK))) (lhsTile q lhs)⟩
        ∈ unrollBody (lowerMatmul q lhs rhs dst)
      ∧ ⟨⟨q, .load 1⟩, .dmaLoad (subRhs q (.subIn 1) rhs (.const (0 * tileK))) (rhsTile q rhs)⟩
        ∈ unrollBody (lowerMatmul q lhs rhs dst) := by
  obtain ⟨-, -, -, hK, hdvd⟩ := verify_matmul hv
  obtain ⟨n, hn⟩ : ∃ n, matmulK lhs / tileK = n + 1 :=
    ⟨matmulK lhs / tileK - 1, by unfold tileK at hdvd ⊢; omega⟩
  rw [unroll_matmul (atIteration_buffer hl) (atIteration_buffer hr) hn]
  have hblock : ∀ i ∈ unrolledBlock q lhs rhs dst 0, i ∈ matmulDefs q lhs rhs dst
      ++ ((List.range (n + 1)).flatMap (unrolledBlock q lhs rhs dst)
        ++ (storeInst q (.matmul lhs rhs dst) :: matmulFrees q lhs rhs dst)) := fun i hi =>
    List.mem_append_right _ (List.mem_append_left _
      (List.mem_flatMap.mpr ⟨0, List.mem_range.mpr (Nat.succ_pos n), hi⟩))
  exact ⟨hblock _ (by simp [unrolledBlock, matmulBlock]),
    hblock _ (by simp [unrolledBlock, matmulBlock])⟩

variable {pairs : List (Value × Value)} {erased : List OpId}

/-- A load the pass does not forward is kept as it is. -/
theorem load_kept (hp : ForwardPairs items pairs) (he : ErasedIds items erased)
    (h : BufferBody items) (hl : items[q]? = some (.op l)) {k : Nat} {view tile : Value}
    (hi : ⟨⟨q, .load k⟩, .dmaLoad view tile⟩ ∈ unrollBody (l.expand q))
    (hid : (⟨q, .load k⟩ : OpId) ∉ forwardedIds items) :
    ⟨⟨q, .load k⟩, .dmaLoad view tile⟩
      ∈ unrollBody (editBody (elideEdit items pairs erased) (expandFrom 0 items)) := by
  rw [unrollBody_elided hp h he]
  refine List.mem_filterMap.mpr ⟨⟨⟨q, .load k⟩, .dmaLoad view tile⟩, ?_, ?_⟩
  · refine mem_expandFrom.mpr ⟨q, .op l, hl, ?_⟩
    rw [Nat.zero_add]
    exact hi
  · have hstore : (⟨q, .load k⟩ : OpId) ∉ erased := by
      intro hmem
      obtain ⟨j, x, -, heq⟩ := (he _).mp hmem
      cases heq
    have hkept : Kept items erased ⟨q, .load k⟩ = true := decide_eq_true ⟨hid, hstore⟩
    rw [elideEdit_eq, if_pos hkept]
    rcases hp.stays h hl (lowered_unrolled h hl hi) hid with hsame | ⟨-, accumulate, hop⟩ |
      ⟨t, t', hop, -⟩
    · rw [hsame]
    · cases l <;> cases hop
    · cases hop

/-- A matmul forwards no load. -/
theorem not_forwarded_block (h : BufferBody items) (hl : items[q]? = some (.op l))
    (hins : l.ins = []) (k : Nat) : (⟨q, .load k⟩ : OpId) ∉ forwardedIds items := by
  intro hmem
  obtain ⟨q', k', x, t, j, l', hf, heq⟩ := (mem_forwardedIds h).mp hmem
  cases heq
  obtain ⟨m, hm, hx⟩ := hf.load
  rw [hl] at hm
  cases hm
  rw [hins] at hx
  cases hx

/-- **What is loaded is bound to DDR.** -/
theorem Canonicalized.sourcesBound (hp : ForwardPairs items pairs) (he : ErasedIds items erased)
    (h : BufferBody items)
    (hcanon : Canonicalized (editBody (elideEdit items pairs erased) (expandFrom 0 items)) body')
    (halloc : eclipseAllocate .bump [⟨args, body'⟩] = some layout)
    (hl : items[q]? = some (.op l)) (howned : ∀ x ∈ l.sources, x.isOwned = true) :
    SourcesBound layout items q l := by
  constructor
  · intro k x t hx hid
    refine hcanon.source halloc (howned x (ins_source hx)) ⟨q, .castIn k⟩ ?_
      (load_kept hp he h hl (load_unrolled hx) hid)
    exact List.mem_cons_self
  · intro x hx
    cases l with
    | matmul lhs rhs dst =>
        obtain ⟨hv, hbuf⟩ := h.op hl
        obtain ⟨hmem₀, hmem₁⟩ := block_unrolled (q := q) hv
          (hbuf lhs (by simp [Lowering.operands])) (hbuf rhs (by simp [Lowering.operands]))
        simp only [Lowering.blocks, List.mem_cons, List.not_mem_nil, or_false] at hx
        rcases hx with rfl | rfl
        · exact hcanon.source halloc (howned _ (by simp [Lowering.sources]))
            ⟨q, .castIn 0⟩ List.mem_cons_self
            (load_kept hp he h hl hmem₀ (not_forwarded_block h hl rfl 0))
        · exact hcanon.source halloc (howned _ (by simp [Lowering.sources]))
            ⟨q, .castIn 1⟩ List.mem_cons_self
            (load_kept hp he h hl hmem₁ (not_forwarded_block h hl rfl 1))
    | ewise | act | reduce => cases hx

end Sources

/-! ## Contents -/

section Contents

variable {F : Type} [Fp32 F] {layout : Layout} {items : List (Item Lowering)} {u : CModel}
  {l : Lowering} {ddr : Value → Contents}

/-- A buffer in DDR, as a tensor. -/
def Layout.tensor (layout : Layout) (u : CModel) (v : Value) : Contents :=
  wordsOf v.type.words (layout.contents u v)

/-- The tiles and buffers of a memory. -/
def Layout.read (layout : Layout) (u : CModel) : BodyState where
  ddr := layout.tensor u
  sram v := match layout.sramAddr? v with
    | some a => wordsOf v.type.words (elemAt u a.toNat)
    | none => []

theorem holds_read (layout : Layout) (u : CModel) : Holds layout (layout.read u) u := by
  constructor
  · intro v a hv i hi
    simp only [Layout.read, hv]
    exact (getD_wordsOf _ hi).symm
  · intro v a hv i hi
    show _ = (layout.tensor u v).getD i 0
    rw [Layout.tensor, getD_wordsOf _ hi, Layout.contents_eq hv]

/-- **What a memory that holds a state reads as.** -/
theorem Holds.tensor {s : BodyState} (h : Holds layout s u) {v : Value} {a : UInt32}
    (hv : ddrBaseAddr layout v = some a) (hlen : (s.ddr v).length = v.type.words) :
    layout.tensor u v = s.ddr v := by
  refine List.ext_getElem ?_ fun i hi hi' => ?_
  · rw [Layout.tensor, length_wordsOf, hlen]
  · rw [Layout.tensor, length_wordsOf] at hi
    have hword := h.ddr v a hv i hi
    rw [List.getD_eq_getElem _ 0 hi', ← Layout.contents_eq hv u i] at hword
    rw [← hword, ← getD_wordsOf (layout.contents u v) hi, List.getD_eq_getElem]
    rfl

/-- The tensor of an operation fills its buffer. -/
theorem length_value (hv : l.verify = true) :
    (l.value F ddr).length = l.dest.type.words := by
  cases l with
  | matmul lhs rhs dst =>
      obtain ⟨-, -, hdst, -⟩ := verify_matmul hv
      rw [Lowering.value, length_wordsOf, Lowering.dest, hdst.words]
  | ewise kind big small out =>
      obtain ⟨rows, cols, m, n, hout, -⟩ := verify_ewise hv
      rw [Lowering.value, length_wordsOf, Lowering.dest, hout.words, hout.elements]
  | act kind src dst =>
      obtain ⟨rows, cols, hdst, -⟩ := verify_act hv
      rw [Lowering.value, length_wordsOf, Lowering.dest, hdst.words, hdst.elements]
  | reduce kind src dst reshape =>
      rw [Lowering.value, length_wordsOf, Lowering.dest, MemRefType.words,
        MemRefType.sizeInBytes]
      simp only [Lowering.verify] at hv
      split at hv
      · rename_i rows cols _
        simp only [Bool.and_eq_true, decide_eq_true_eq] at hv
        rw [hv.1.2]
        omega
      · cases hv

theorem length_meaning (h : BufferBody items) (hddr : ∀ v, (ddr v).length = v.type.words)
    (v : Value) : (meaning F items ddr v).length = v.type.words := by
  induction items generalizing ddr with
  | nil => exact hddr v
  | cons item items ih =>
      rw [meaning, List.foldl_cons]
      refine ih (fun item' hmem => h item' (List.mem_cons_of_mem item hmem)) fun w => ?_
      cases item with
      | define | ret => exact hddr w
      | op l =>
          rw [Item.meaning]
          dsimp only
          split_ifs with hw
          · rw [hw]
            exact length_value (h _ List.mem_cons_self).1
          · exact hddr w

end Contents

/-! ## The compiler -/

/-- `Eclipse-compile` on a bufferized function, with the bump layout. -/
def eclipseCompile (canonicalize : List Stmt → List Stmt) (args : List (Option MemRefType))
    (src : List (Item LinalgOp)) : Option (Layout × List EasmInsn) := do
  let body ← convertLinalgToEclipse src
  let module : Module := [⟨args, canonicalize (elideCopies body)⟩]
  let layout ← eclipseAllocate .bump module
  let out ← eclipseToEasm layout module
  return (layout, out)

/-- The module that is allocated and emitted. -/
def compiledModule (canonicalize : List Stmt → List Stmt) (args : List (Option MemRefType))
    (items : List (Item Lowering)) : Module :=
  [⟨args, canonicalize (elideCopies (expandFrom 0 items))⟩]

/-- **The program fits**: its tiles in SRAM, its buffers in DDR and its descriptors in
the command queue. -/
structure FitsDevice (layout : Layout) (module : Module) : Prop where
  sram : SramFits module
  ddr : SizesFit module
  queue : descriptorCount layout module ≤ 1020

/-- Buffers of their own to load from, none of them empty. -/
structure Lowering.Compilable (l : Lowering) : Prop where
  nonempty : ∀ v ∈ l.operands, 0 < v.type.numElements
  owned : ∀ x ∈ l.sources, x.isOwned = true

/-- **A function that compiles**, to a stream that fits the device: the operations
are accepted and work on buffers, no store is elided that a later load needs, and the
canonicalizer only tidies up. -/
structure Compiles (canonicalize : List Stmt → List Stmt) (args : List (Option MemRefType))
    (src : List (Item LinalgOp)) (items : List (Item Lowering)) (layout : Layout)
    (out : List EasmInsn) : Prop where
  converted : convertItems src = some items
  buffers : BufferBody items
  safe : SafeToElide items
  compilable : ∀ l, Item.op l ∈ items → l.Compilable
  canonical : Canonicalized (elideCopies (expandFrom 0 items))
    (canonicalize (elideCopies (expandFrom 0 items)))
  compiled : eclipseCompile canonicalize args src = some (layout, out)
  fits : FitsDevice layout (compiledModule canonicalize args items)

theorem matchReduceBody_unindexed {e : ScalarExpr} : matchReduceBody e ≠ some .ARGMAX := by
  intro h
  cases matchReduceBody_some h

/-- No pattern makes an ARGMAX. -/
theorem matchLinalg_unindexed {op : LinalgOp} {src dst : Value} {reshape : Bool} :
    matchLinalg op ≠ some (.reduce .ARGMAX src dst reshape) := by
  intro h
  cases op with
  | matmul | elementwise | exp | rsqrt => cases h
  | generic op =>
      rcases Option.or_eq_some_iff.mp h with h | ⟨-, h⟩
      · obtain ⟨_, _, _, _, heq⟩ := matchEwiseBroadcast_kind h
        cases heq
      rcases Option.or_eq_some_iff.mp h with h | ⟨-, h⟩
      · unfold matchAct at h
        split at h
        · obtain ⟨_, -, heq⟩ := Option.map_eq_some_iff.mp h
          cases heq
        · cases h
      · unfold matchGenericReduce at h
        split at h
        · obtain ⟨_, -, h⟩ := Option.bind_eq_some_iff.mp h
          obtain ⟨_, -, h⟩ := Option.bind_eq_some_iff.mp h
          obtain ⟨kind, hkind, h⟩ := Option.bind_eq_some_iff.mp h
          cases h
          exact matchReduceBody_unindexed hkind
        · cases h
  | reduce input init dimensions combiner =>
      obtain ⟨_, -, h⟩ := Option.bind_eq_some_iff.mp h
      obtain ⟨_, -, h⟩ := Option.bind_eq_some_iff.mp h
      obtain ⟨_, -, h⟩ := Option.bind_eq_some_iff.mp h
      obtain ⟨kind, hkind, h⟩ := Option.bind_eq_some_iff.mp h
      cases h
      exact matchReduceBody_unindexed hkind

section Compile

variable {F : Type} [Fp32 F] {canonicalize : List Stmt → List Stmt}
  {args : List (Option MemRefType)} {src : List (Item LinalgOp)} {items : List (Item Lowering)}
  {layout : Layout} {out : List EasmInsn}

theorem converted_regular (hconv : convertItems src = some items)
    (hops : ∀ l, Item.op l ∈ items → l.Compilable) {l : Lowering} (hl : Item.op l ∈ items) :
    l.Regular := by
  refine ⟨(hops l hl).nonempty, fun x y reshape heq => ?_⟩
  obtain ⟨j, hj⟩ := List.mem_iff_getElem?.mp hl
  rw [mapM_getElem? hconv j] at hj
  obtain ⟨item, -, hitem⟩ := Option.bind_eq_some_iff.mp hj
  cases item with
  | op linalg =>
      obtain ⟨l', hl', heq'⟩ := Option.map_eq_some_iff.mp hitem
      cases heq'
      obtain ⟨l'', hmatch, hret⟩ := Option.bind_eq_some_iff.mp hl'
      obtain ⟨-, -, hret⟩ := Option.bind_eq_some_iff.mp hret
      cases hret
      rw [heq] at hmatch
      exact matchLinalg_unindexed hmatch
  | define | ret => cases hitem

/-- A returned buffer is not elided. -/
theorem returned_not_elided {vs : List Value} (hret : Item.ret vs ∈ items) {v : Value}
    (hv : v ∈ vs) : ¬ ElidedBuffer items v := by
  rintro ⟨i, hes⟩
  obtain ⟨q, hq⟩ := List.mem_iff_getElem?.mp hret
  exact hes.notReturned q vs hq hv

theorem eclipseCompile_eq (hconv : convertItems src = some items)
    (hcompile : eclipseCompile canonicalize args src = some (layout, out)) :
    eclipseAllocate .bump (compiledModule canonicalize args items) = some layout
      ∧ eclipseToEasm layout (compiledModule canonicalize args items) = some out := by
  rw [eclipseCompile, convertLinalgToEclipse, hconv] at hcompile
  obtain ⟨body, hbody, hcompile⟩ := Option.bind_eq_some_iff.mp hcompile
  cases hbody
  obtain ⟨layout', halloc, hcompile⟩ := Option.bind_eq_some_iff.mp hcompile
  obtain ⟨out', hemit, hcompile⟩ := Option.bind_eq_some_iff.mp hcompile
  cases hcompile
  exact ⟨halloc, hemit⟩

/-- **Every operation of the compiled module** can be emitted and executed. -/
theorem compiled_lawful (hconv : convertItems src = some items) (hbody : BufferBody items)
    (hops : ∀ l, Item.op l ∈ items → l.Compilable)
    (hcanon : Canonicalized (elideCopies (expandFrom 0 items))
      (canonicalize (elideCopies (expandFrom 0 items))))
    (halloc : eclipseAllocate .bump (compiledModule canonicalize args items) = some layout) :
    ∀ i ∈ unrollModule (compiledModule canonicalize args items), i.op.Lawful layout := by
  obtain ⟨pairs, erased, hp, he, hedit⟩ := elideCopies_eq hbody
  rw [compiledModule] at halloc
  rw [compiledModule, unrollModule, List.flatMap_singleton]
  rw [hedit] at hcanon halloc ⊢
  intro i hi
  cases hdef : i.op.isDefinition with
  | true => exact .silent (isDefinition_silent hdef)
  | false =>
      have hmem := mem_effects.mpr ⟨hi, hdef⟩
      rw [hcanon.kept] at hmem
      have hi' := (mem_effects.mp hmem).1
      rw [unrollBody_elided hp hbody he] at hi'
      exact elided_lawful hp hbody (fun l hl => converted_regular hconv hops hl)
        (fun q l hl => hcanon.sourcesBound hp he hbody halloc hl
          (hops l (List.mem_of_getElem? hl)).owned) hi'

/-- **The compiled stream, run on the simulator**: it finishes exactly when no lowered
division meets a zero, and then the memory holds a state in which the buffers that are
not elided are what the lowered operations mean. -/
theorem Compiles.run (h : Compiles canonicalize args src items layout out) (u : CModel) :
    ((∃ u', runEasm F out u = .ok u') ↔ DivisionsSafe F items (layout.tensor u))
      ∧ ∀ u', runEasm F out u = .ok u' → ∃ t, Holds layout t u'
        ∧ ∀ v, ¬ ElidedBuffer items v → t.ddr v = meaning F items (layout.tensor u) v := by
  obtain ⟨hconv, hbody, hsafe, hops, hcanon, hcompile, hfits⟩ := h
  obtain ⟨halloc, hemit⟩ := eclipseCompile_eq hconv hcompile
  have hlaw := compiled_lawful hconv hbody hops hcanon halloc
  obtain ⟨hfin, hrel⟩ := @eclipseToEasm_simulates F _ layout _ out
    (placed_of_fits halloc hfits.ddr hfits.sram) hlaw hemit hfits.queue (layout.read u) u
    (holds_read layout u)
  obtain ⟨pairs, erased, hp, he, hedit⟩ := elideCopies_eq hbody
  have hunroll : unrollModule (compiledModule canonicalize args items)
      = unrollBody (canonicalize (elideCopies (expandFrom 0 items))) := by
    rw [compiledModule, unrollModule, List.flatMap_singleton]
  have heffects := hcanon.kept
  rw [hunroll] at hfin hrel
  rw [hedit, unrollBody_elided hp hbody he, ← hedit] at heffects
  constructor
  · rw [hfin, ← divisorsNonzero_effects, heffects, divisorsNonzero_effects,
      divisors_elided hp he hsafe hbody]
    rfl
  · intro u' hu'
    have hheld := hrel u' hu'
    rw [← run_effects, heffects, run_effects] at hheld
    refine ⟨_, hheld, fun v hnot => ?_⟩
    obtain ⟨hsim, -⟩ := @Simulates.body items pairs erased (machineOps F) hp he hsafe hbody
      (layout.read u)
    rw [← hsim.ddr v hnot, run_items hbody]
    rfl

/-- **The compiler preserves the meaning of what it lowers.** On any memory the stream
finishes exactly when no lowered division meets a zero, and then every buffer that is
not elided holds the tensor the lowered operations mean. -/
theorem compile_correct (h : Compiles canonicalize args src items layout out) (u : CModel) :
    ((∃ u', runEasm F out u = .ok u') ↔ DivisionsSafe F items (layout.tensor u))
      ∧ ∀ u', runEasm F out u = .ok u' → ∀ v a, ddrBaseAddr layout v = some a →
        ¬ ElidedBuffer items v →
        layout.tensor u' v = meaning F items (layout.tensor u) v := by
  obtain ⟨hfin, hrel⟩ := @Compiles.run F _ canonicalize args src items layout out h u
  refine ⟨hfin, fun u' hu' v a hv hnot => ?_⟩
  obtain ⟨t, ht, hmeans⟩ := hrel u' hu'
  have hlen := @length_meaning F _ items (layout.tensor u) h.buffers
    (fun w => length_wordsOf _ _) v
  rw [← hmeans v hnot] at hlen ⊢
  exact ht.tensor hv hlen

end Compile

/-! ### `y = exp (exp a)` -/

def expChainSource : List (Item LinalgOp) :=
  [.define (chainAlloc 0 1 16),
    .op (.exp (chainArg 0 1 16) (chainAlloc 0 1 16)),
    .define (chainAlloc 2 1 16),
    .op (.exp (chainAlloc 0 1 16) (chainAlloc 2 1 16)),
    .ret [chainAlloc 2 1 16]]

/-- Definitions without a use. -/
def dropUnused (body : List Stmt) : List Stmt :=
  editBody (fun i => match i.op with
    | .define v => if (users (bodyInsts body) v).isEmpty then none else some i
    | _ => some i) body

/-- The casts of the elided buffer go first, then the buffer. -/
def dropTwice (body : List Stmt) : List Stmt := dropUnused (dropUnused body)

theorem canonicalized_expChain : Canonicalized (elideCopies (expandFrom 0 expChain))
    (dropTwice (elideCopies (expandFrom 0 expChain))) :=
  ⟨by decide +kernel, by decide +kernel⟩

theorem compiles_expChain : ∃ layout out,
    Compiles dropTwice [some (f16Type 1 16)] expChainSource expChain layout out := by
  have hrun : ((eclipseCompile dropTwice [some (f16Type 1 16)] expChainSource).any fun r =>
      decide (descriptorCount r.1 (compiledModule dropTwice [some (f16Type 1 16)] expChain)
        ≤ 1020)) = true := by decide +kernel
  obtain ⟨⟨layout, out⟩, hcompile, hqueue⟩ := (Option.any_eq_true _ _).mp hrun
  refine ⟨layout, out, rfl, by decide, safeToElide_expChain, ?_, canonicalized_expChain, hcompile,
    ⟨by decide +kernel, sizesFit_of_small (by decide +kernel) (by decide +kernel),
      of_decide_eq_true hqueue⟩⟩
  intro l hl
  simp only [expChain, List.mem_cons, List.not_mem_nil, or_false] at hl
  rcases hl with hl | hl | hl | hl | hl <;> cases hl
  · exact ⟨by decide, by decide⟩
  · exact ⟨by decide, by decide⟩

theorem compile_correct_expChain : ∃ layout out,
    eclipseCompile dropTwice [some (f16Type 1 16)] expChainSource = some (layout, out)
      ∧ ∀ u : CModel, ((∃ u', @runEasm Int Fp32.integers out u = .ok u')
          ↔ @DivisionsSafe Int Fp32.integers expChain (layout.tensor u))
        ∧ ∀ u', @runEasm Int Fp32.integers out u = .ok u' → ∀ v a,
          ddrBaseAddr layout v = some a → ¬ ElidedBuffer expChain v →
          layout.tensor u' v = @meaning Int Fp32.integers expChain (layout.tensor u) v := by
  obtain ⟨layout, out, h⟩ := compiles_expChain
  exact ⟨layout, out, h.compiled, fun u => @compile_correct Int Fp32.integers dropTwice _
    expChainSource expChain layout out h u⟩

end EclipseNpu.Compiler

import EclipseNpu.Compiler.Pipeline
import EclipseNpu.Compiler.TransferLines

/-!
# Compiler — SyncPlacement

Where the lowerings put SYNC, and when that is enough. An operation becomes its
loads, a SYNC, the rest of its rounds and last its store, with no SYNC behind it:
the store stands in one segment with the loads of the next operation. Those are
forwarded when they read back what was stored, but the K blocks of a matmul never
are. So every conflict of the stream has a SYNC between (`conflictsFenced_iff`), and the
hazard checker is silent (`syncs_suffice_iff`), exactly when no matmul reads what the
operation right before it has stored.
-/

namespace EclipseNpu.Compiler

open EclipseNpu.Lib EclipseNpu.Runtime EclipseNpu.Tools

/-! ## Emission -/

section Emission

variable {layout : Layout} {i : Inst} {is js : List Inst} {xs : List EasmInsn} {d : UInt32}
  {e : Emitted}

/-- The lines of a list of operations, from some descriptor address on. -/
def EmitsLines (layout : Layout) (is : List Inst) (xs : List EasmInsn) : Prop :=
  ∃ d d', emitInsts layout d is = some (xs, d')

theorem EmitsLines.nil (h : EmitsLines layout [] xs) : xs = [] := by
  obtain ⟨d, d', h⟩ := h
  cases h
  rfl

theorem EmitsLines.cons (h : EmitsLines layout (i :: is) xs) : ∃ d e ys,
    emitOp layout d i.op = some e ∧ EmitsLines layout is ys ∧ xs = e.1 ++ ys := by
  obtain ⟨d, d', h⟩ := h
  obtain ⟨e₁, e₂, h₁, h₂, heq⟩ := emitInsts_cons h
  cases heq
  exact ⟨d, e₁, e₂.1, h₁, ⟨e₁.2, e₂.2, h₂⟩, rfl⟩

theorem EmitsLines.single (h : EmitsLines layout [i] xs) : ∃ d e,
    emitOp layout d i.op = some e ∧ xs = e.1 := by
  obtain ⟨d, e, ys, hop, hys, rfl⟩ := h.cons
  exact ⟨d, e, hop, by rw [hys.nil, List.append_nil]⟩

theorem emitInsts_split (h : emitInsts layout d (is ++ js) = some e) : ∃ e₁ e₂,
    emitInsts layout d is = some e₁ ∧ emitInsts layout e₁.2 js = some e₂
      ∧ e = (e₁.1 ++ e₂.1, e₂.2) := by
  induction is generalizing d e with
  | nil => exact ⟨([], d), e, rfl, h, rfl⟩
  | cons i is ih =>
      obtain ⟨e₁, e₂, h₁, h₂, rfl⟩ := emitInsts_cons h
      obtain ⟨e₃, e₄, h₃, h₄, rfl⟩ := ih h₂
      refine ⟨(e₁.1 ++ e₃.1, e₃.2), e₄, ?_, h₄, by rw [List.append_assoc]⟩
      rw [emitInsts, h₁]
      show (emitInsts layout e₁.2 is >>= _) = _
      rw [h₃]
      rfl

theorem EmitsLines.append (h : EmitsLines layout (is ++ js) xs) : ∃ ys zs,
    EmitsLines layout is ys ∧ EmitsLines layout js zs ∧ xs = ys ++ zs := by
  obtain ⟨d, d', h⟩ := h
  obtain ⟨e₁, e₂, h₁, h₂, heq⟩ := emitInsts_split h
  cases heq
  exact ⟨e₁.1, e₂.1, ⟨d, e₁.2, h₁⟩, ⟨e₁.2, e₂.2, h₂⟩, rfl⟩

theorem emitOp_definition {op : Op} (h : op.isDefinition = true) (d : UInt32) :
    emitOp layout d op = some ([], d) := by
  cases op with
  | define | dealloc => rfl
  | _ => cases h

/-- Definitions and frees emit nothing. -/
theorem emitInsts_effects (d : UInt32) :
    emitInsts layout d (effects is) = emitInsts layout d is := by
  induction is generalizing d with
  | nil => rfl
  | cons i is ih =>
      cases hdef : i.op.isDefinition with
      | true =>
          rw [effects, List.filter_cons_of_neg (by simp [hdef]), emitInsts,
            emitOp_definition hdef]
          show emitInsts layout d (effects is) = (emitInsts layout d is >>= _)
          rw [ih d]
          cases emitInsts layout d is <;> rfl
      | false =>
          rw [effects, List.filter_cons_of_pos (by simp [hdef]), emitInsts, emitInsts]
          cases emitOp layout d i.op with
          | none => rfl
          | some e =>
              show (emitInsts layout e.2 (effects is) >>= _) = (emitInsts layout e.2 is >>= _)
              rw [ih e.2]

end Emission

/-! ## Loads -/

/-- Loads of buffers, each into a tile of its own. -/
structure Loads (is : List Inst) : Prop where
  load : ∀ i ∈ is, ∃ view tile, i.op = .dmaLoad view tile ∧ LoadOf view.root tile i.op
    ∧ view.root.isTile = false ∧ ∃ p k t, tile = tileIn p k t
  distinct : is.Pairwise fun i i' => i.op.writtenTiles ≠ i'.op.writtenTiles

section Loads

variable {layout : Layout} {is : List Inst} {xs : List EasmInsn}

theorem Loads.sublist {js : List Inst} (h : Loads is) (hsub : js.Sublist is) : Loads js :=
  ⟨fun i hi => h.load i (hsub.subset hi), h.distinct.sublist hsub⟩

/-- Every line is the line of a load. -/
theorem Loads.lines (hs : layout.Separate) (hload : Loads is) (he : EmitsLines layout is xs)
    {y : EasmInsn} (hy : y ∈ xs) : ∃ i ∈ is, ∃ view tile, i.op = .dmaLoad view tile
      ∧ Moves layout view.root tile y := by
  induction is generalizing xs with
  | nil =>
      rw [he.nil] at hy
      cases hy
  | cons i is ih =>
      obtain ⟨d, e, ys, hop, hys, rfl⟩ := he.cons
      rcases List.mem_append.mp hy with hy | hy
      · obtain ⟨view, tile, heq, hof, -, -⟩ := hload.load i List.mem_cons_self
        rcases hof.emit hs hop with hnone | ⟨z, hline, hz⟩
        · rw [hnone] at hy
          cases hy
        · rw [hline, List.mem_singleton] at hy
          subst hy
          exact ⟨i, List.mem_cons_self, view, tile, heq, hz⟩
      · obtain ⟨j, hj, hmoves⟩ := ih (hload.sublist (List.sublist_cons_self i is)) hys hy
        exact ⟨j, List.mem_cons_of_mem i hj, hmoves⟩

theorem Loads.noSync (hs : layout.Separate) (hload : Loads is) (he : EmitsLines layout is xs)
    {y : EasmInsn} (hy : y ∈ xs) : y.isSync = false := by
  obtain ⟨i, -, view, tile, -, hmoves⟩ := hload.lines hs he hy
  exact hmoves.noSync

/-- **Loads do not conflict** with each other. -/
theorem Loads.pairwise (hs : layout.Separate) (hload : Loads is)
    (he : EmitsLines layout is xs) : xs.Pairwise HazardFree := by
  induction is generalizing xs with
  | nil =>
      rw [he.nil]
      exact .nil
  | cons i is ih =>
      obtain ⟨d, e, ys, hop, hys, rfl⟩ := he.cons
      have htail := hload.sublist (List.sublist_cons_self i is)
      obtain ⟨view, tile, heq, hof, hview, p, k, t, rfl⟩ := hload.load i List.mem_cons_self
      rcases hof.emit hs hop with hnone | ⟨y, hline, hy⟩
      · rw [hnone]
        exact ih htail hys
      · rw [hline]
        refine .cons (fun z hz => ?_) (ih htail hys)
        obtain ⟨j, hj, view', tile', heq', hz'⟩ := htail.lines hs hys hz
        obtain ⟨view'', tile'', heq'', -, hview', p', k', t', htile'⟩ := htail.load j hj
        rw [heq'] at heq''
        cases heq''
        have hne := List.rel_of_pairwise_cons hload.distinct hj
        rw [heq, heq'] at hne
        refine hy.noConflict hs hz' (.inl ?_) ?_ ?_
        · intro h
          rw [← h] at hview'
          cases hview'
        · intro h
          rw [h, htile'] at hview
          cases hview
        · exact fun h => hne (congrArg (fun t => [t]) h)

end Loads

/-! ## Rounds -/

/-- The checker's condition, behind the instructions since the last SYNC. -/
abbrev Clean (seen xs : List EasmInsn) : Prop := SegmentsFrom EasmInsn.isSync HazardFree seen xs

/-- Lines that start and end a segment and are fine themselves. -/
def Neutral (xs : List EasmInsn) : Prop := ∀ ys, Clean [] (xs ++ ys) ↔ Clean [] ys

section Rounds

variable {xs ys ls seen : List EasmInsn} {y : EasmInsn}

theorem neutral_nil : Neutral [] := fun _ => Iff.rfl

theorem Neutral.append (hx : Neutral xs) (hy : Neutral ys) : Neutral (xs ++ ys) := by
  intro zs
  rw [List.append_assoc]
  exact (hx _).trans (hy zs)

/-- What follows the loads of a round. -/
theorem neutral_compute (hy : y.isSync = false) : Neutral [y, .sync] := by
  intro zs
  show Clean [] ([y] ++ .sync :: zs) ↔ _
  refine (segmentsFrom_closed (fun x hx => ?_) rfl).trans ?_
  · rw [List.mem_singleton.mp hx]
    exact hy
  · exact ⟨fun h => h.2.2, fun h => ⟨by simp, List.pairwise_singleton _ _, h⟩⟩

/-- **A round** checks its loads against what stands before them. -/
theorem clean_round (hls : ∀ x ∈ ls, x.isSync = false) (hpair : ls.Pairwise HazardFree)
    (hxs : Neutral xs) : Clean seen (ls ++ .sync :: (xs ++ ys))
      ↔ (∀ x ∈ ls, ∀ z ∈ seen, HazardFree z x) ∧ Clean [] ys := by
  refine (segmentsFrom_closed hls rfl).trans (and_congr_right fun _ => ?_)
  exact ⟨fun h => (hxs ys).mp h.2, fun h => ⟨hpair, (hxs ys).mpr h⟩⟩

theorem neutral_round (hls : ∀ x ∈ ls, x.isSync = false) (hpair : ls.Pairwise HazardFree)
    (hxs : Neutral xs) : Neutral (ls ++ .sync :: xs) := by
  intro zs
  rw [List.append_assoc, List.cons_append]
  refine (clean_round hls hpair hxs).trans (and_iff_right ?_)
  intro x _ z hz
  cases hz

/-- A store at the end of an operation waits for the next segment. -/
theorem clean_store (hys : ys.Pairwise HazardFree) (hsync : ∀ y ∈ ys, y.isSync = false) :
    Clean [] (ys ++ xs) ↔ Clean ys xs := by
  refine (segmentsFrom_append hsync).trans ?_
  rw [List.nil_append]
  refine ⟨fun h => h.2.2, fun h => ⟨?_, hys, h⟩⟩
  intro x _ z hz
  cases hz

end Rounds

/-- Operations whose lines are neutral. -/
def NeutralInsts (layout : Layout) (is : List Inst) : Prop :=
  ∀ xs, EmitsLines layout is xs → Neutral xs

section Neutral

variable {layout : Layout} {is js : List Inst} {i : Inst} {id : OpId}

theorem neutralInsts_nil : NeutralInsts layout [] := by
  intro xs he
  rw [he.nil]
  exact neutral_nil

theorem NeutralInsts.append (hi : NeutralInsts layout is) (hj : NeutralInsts layout js) :
    NeutralInsts layout (is ++ js) := by
  intro xs he
  obtain ⟨ys, zs, hys, hzs, rfl⟩ := he.append
  exact (hi ys hys).append (hj zs hzs)

/-- Operations of the compute units. -/
def Op.isCompute : Op → Bool
  | .matmul .. | .ewise .. | .act .. | .reduce .. => true
  | _ => false

theorem emitOp_compute {d : UInt32} {op : Op} {e : Emitted} (h : op.isCompute = true)
    (he : emitOp layout d op = some e) : ∃ y, e.1 = [y] ∧ y.isSync = false := by
  cases emitOp_step he with
  | line y _ hy _ _ => exact ⟨y, rfl, hy⟩
  | sync hop =>
      rw [hop] at h
      cases h
  | dropped hdrop =>
      cases op with
      | matmul | ewise | act | reduce => cases hdrop
      | _ => cases h
  | silent hop =>
      cases op with
      | matmul | ewise | act | reduce => cases hop
      | _ => cases h

theorem emitsLines_sync {xs : List EasmInsn} (he : EmitsLines layout (⟨id, .sync⟩ :: is) xs) :
    ∃ ys, EmitsLines layout is ys ∧ xs = .sync :: ys := by
  obtain ⟨d, e, ys, hop, hys, rfl⟩ := he.cons
  cases hop
  exact ⟨ys, hys, rfl⟩

theorem neutralInsts_compute (h : i.op.isCompute = true) :
    NeutralInsts layout [i, ⟨id, .sync⟩] := by
  intro xs he
  obtain ⟨d, e, ys, hop, hys, rfl⟩ := he.cons
  obtain ⟨zs, hzs, rfl⟩ := emitsLines_sync hys
  obtain ⟨y, hy, hsync⟩ := emitOp_compute h hop
  rw [hy, hzs.nil]
  exact neutral_compute hsync

/-- **A round of its own.** -/
theorem Loads.neutralInsts (hs : layout.Separate) (hload : Loads is)
    (hj : NeutralInsts layout js) : NeutralInsts layout (is ++ ⟨id, .sync⟩ :: js) := by
  intro xs he
  obtain ⟨ys, zs, hys, hzs, rfl⟩ := he.append
  obtain ⟨ws, hws, rfl⟩ := emitsLines_sync hzs
  exact neutral_round (fun x hx => hload.noSync hs hys hx) (hload.pairwise hs hys) (hj ws hws)

end Neutral

/-! ## Operations -/

section Operations

variable {items : List (Item Lowering)} {pairs : List (Value × Value)} {erased : List OpId}
  {q : Nat} {l : Lowering} {layout : Layout} {is js : List Inst}

/-- The loads before the first SYNC. -/
def Lowering.firstLoads (q : Nat) : Lowering → List Inst
  | .matmul lhs rhs _ =>
      [⟨⟨q, .load 0⟩, .dmaLoad (subLhs q (.subIn 0) lhs (.const (0 * tileK))) (lhsTile q lhs)⟩,
        ⟨⟨q, .load 1⟩,
          .dmaLoad (subRhs q (.subIn 1) rhs (.const (0 * tileK))) (rhsTile q rhs)⟩]
  | l => l.loads q

/-- The loads of a K block. -/
theorem loads_block {lhs rhs dst : Value} (hv : (Lowering.matmul lhs rhs dst).verify = true)
    (hl : lhs.isBuffer = true) (hr : rhs.isBuffer = true) {b : Nat}
    (hb : b < matmulK lhs / tileK) (sub load : Nat → Pos) :
    Loads [⟨⟨q, load 0⟩, .dmaLoad (subLhs q (sub 0) lhs (.const (b * tileK))) (lhsTile q lhs)⟩,
      ⟨⟨q, load 1⟩,
        .dmaLoad (subRhs q (sub 1) rhs (.const (b * tileK))) (rhsTile q rhs)⟩] := by
  obtain ⟨hlhs, hrhs, hdst, -, hdvd⟩ := verify_matmul hv
  obtain ⟨hlroot, hltile, -⟩ := isBuffer_cases hl
  obtain ⟨hrroot, hrtile, -⟩ := isBuffer_cases hr
  have hend : b * tileK + tileK ≤ matmulK lhs := by
    unfold tileK at *
    omega
  constructor
  · intro i hi
    simp only [List.mem_cons, List.not_mem_nil, or_false] at hi
    rcases hi with rfl | rfl
    · refine ⟨_, _, rfl, ?_, ?_, _, _, _, rfl⟩
      · show LoadOf lhs.root _ _
        rw [hlroot]
        exact .block hlhs ⟨rfl, hlhs.bits⟩ (by omega) hend (.inr (by decide))
      · show lhs.root.isTile = false
        rw [hlroot, hltile]
    · refine ⟨_, _, rfl, ?_, ?_, _, _, _, rfl⟩
      · show LoadOf rhs.root _ _
        rw [hrroot]
        exact .block hrhs ⟨rfl, hrhs.bits⟩ hend (by omega) (.inl rfl)
      · show rhs.root.isTile = false
        rw [hrroot, hrtile]
  · simp [Op.writtenTiles, lhsTile, rhsTile, tileIn]

/-- The loads of whole operands. -/
theorem loads_whole (hv : l.verify = true) (hbuf : ∀ x ∈ l.sources, x.isBuffer = true) :
    Loads (l.loads q) := by
  constructor
  · intro i hi
    obtain ⟨k, hk, rfl⟩ := List.mem_mapIdx.mp hi
    have hx : l.ins[k]? = some (l.ins[k].1, l.ins[k].2) := List.getElem?_eq_getElem hk
    obtain ⟨hroot, htile, -⟩ := isBuffer_cases (hbuf _ (ins_source hx))
    obtain ⟨rows, cols, hshape⟩ := source_shape hv (ins_source hx)
    refine ⟨_, _, rfl, ?_, ?_, _, _, _, rfl⟩
    · show LoadOf l.ins[k].1.root _ _
      rw [hroot]
      exact .whole hshape (hshape.sram (ins_type hv hx)).1
    · show l.ins[k].1.root.isTile = false
      rw [hroot, htile]
  · cases l with
    | matmul => exact .nil
    | ewise => simp [Lowering.loads, Lowering.ins, loadInst, Op.writtenTiles, tileIn]
    | act | reduce => exact List.pairwise_singleton _ _

theorem effects_append (is js : List Inst) : effects (is ++ js) = effects is ++ effects js :=
  List.filter_append is js

theorem isDefinition_replaceAll (op : Op) : (replaceAll pairs op).isDefinition
    = op.isDefinition := by
  rw [replaceAll_eq]
  cases op <;> rfl

/-- The pass keeps definitions definitions. -/
theorem effects_elided : effects (is.filterMap (elideEdit items pairs erased))
    = (effects is).filterMap (elideEdit items pairs erased) := by
  rw [effects, effects, List.filter_filterMap, List.filterMap_filter]
  refine List.filterMap_congr fun i _ => ?_
  rw [elideEdit_eq]
  by_cases hkept : Kept items erased i.id = true
  · rw [if_pos hkept]
    cases hdef : i.op.isDefinition with
    | true => simp [Option.filter, isDefinition_replaceAll, hdef]
    | false => simp [Option.filter, isDefinition_replaceAll, hdef]
  · rw [if_neg hkept]
    simp

/-- An operation that loads its operands whole. -/
theorem effects_expand (hins : l.ins ≠ []) (q : Nat) : effects (unrollBody (l.expand q))
    = l.firstLoads q ++ ⟨⟨q, .fence 0⟩, .sync⟩
      :: ([⟨⟨q, .compute⟩, l.compute q false⟩, ⟨⟨q, .fence 1⟩, .sync⟩] ++ [storeInst q l]) := by
  cases l with
  | matmul => exact absurd rfl hins
  | ewise | act => rfl
  | reduce kind src dst reshape => cases reshape <;> rfl

/-- What a matmul does between its first loads and its store: the first block, and
`n` others. -/
def matmulRounds (q : Nat) (lhs rhs dst : Value) (n : Nat) : List Inst :=
  [⟨⟨q, .compute⟩, (Lowering.matmul lhs rhs dst).compute q false⟩, ⟨⟨q, .fence 1⟩, .sync⟩]
    ++ (List.range n).flatMap fun b => effects (unrolledBlock q lhs rhs dst (b + 1))

/-- **A matmul**: its first loads, its rounds, and the store. -/
theorem effects_matmul {lhs rhs dst : Value} (hl : lhs.isBuffer = true)
    (hr : rhs.isBuffer = true) {n : Nat} (hn : matmulK lhs / tileK = n + 1) :
    effects (unrollBody (lowerMatmul q lhs rhs dst))
      = (Lowering.matmul lhs rhs dst).firstLoads q ++ ⟨⟨q, .fence 0⟩, .sync⟩
        :: (matmulRounds q lhs rhs dst n ++ [storeInst q (.matmul lhs rhs dst)]) := by
  rw [unroll_matmul (atIteration_buffer hl) (atIteration_buffer hr) hn, List.range_succ_eq_map,
    List.flatMap_cons, List.flatMap_map, effects_append, effects_append, effects_append]
  rw [show effects ((List.range n).flatMap fun b => unrolledBlock q lhs rhs dst (b + 1))
    = (List.range n).flatMap fun b => effects (unrolledBlock q lhs rhs dst (b + 1)) from
      List.filter_flatMap]
  rw [matmulRounds]
  simp only [List.append_assoc]
  rfl

/-- None of it but the last is the store. -/
theorem matmul_inner {lhs rhs dst : Value} (hl : lhs.isBuffer = true)
    (hr : rhs.isBuffer = true) {n : Nat} (hn : matmulK lhs / tileK = n + 1) {i : Inst}
    (hi : i ∈ (Lowering.matmul lhs rhs dst).firstLoads q ++ ⟨⟨q, .fence 0⟩, .sync⟩
      :: matmulRounds q lhs rhs dst n) :
    i ∈ unrollBody (lowerMatmul q lhs rhs dst) ∧ i.id.pos ≠ .store := by
  constructor
  · refine (mem_effects.mp (?_ : i ∈ effects _)).1
    rw [effects_matmul hl hr hn, ← List.cons_append, ← List.append_assoc, List.mem_append]
    exact .inl hi
  · simp only [matmulRounds, Lowering.firstLoads, List.mem_append, List.mem_cons,
      List.not_mem_nil, or_false, List.mem_flatMap] at hi
    rcases hi with (rfl | rfl) | rfl | (rfl | rfl) | ⟨b, -, hi⟩
    · simp
    · simp
    · simp
    · simp
    · simp
    · have hmem := (mem_effects.mp hi).1
      simp only [unrolledBlock, matmulBlock, List.mem_cons, List.not_mem_nil,
        or_false] at hmem
      rcases hmem with rfl | rfl | rfl | rfl | rfl | rfl | rfl <;> simp

theorem kept_inner (h : BufferBody items) (he : ErasedIds items erased) {id : OpId}
    (hload : ∀ k, id.pos ≠ .load k) (hstore : id.pos ≠ .store) :
    Kept items erased id = true := by
  refine decide_eq_true ⟨not_mem_forwardedIds h hload, fun hmem => ?_⟩
  obtain ⟨i, x, -, rfl⟩ := (he id).mp hmem
  exact hstore rfl

theorem edit_sync (h : BufferBody items) (he : ErasedIds items erased) (k : Nat) :
    elideEdit items pairs erased ⟨⟨q, .fence k⟩, .sync⟩ = some ⟨⟨q, .fence k⟩, .sync⟩ := by
  rw [elideEdit_eq, if_pos (kept_inner h he (by simp) (by simp)), replaceAll_eq]
  rfl

theorem isCompute_compute (f g : Value → Value) (accumulate : Bool) :
    ((l.compute q accumulate).mapOperands f g).isCompute = true := by
  cases l <;> rfl

theorem edit_compute (h : BufferBody items) (he : ErasedIds items erased)
    (accumulate : Bool) : ∃ i, elideEdit items pairs erased
      ⟨⟨q, .compute⟩, l.compute q accumulate⟩ = some i ∧ i.op.isCompute = true := by
  rw [elideEdit_eq, if_pos (kept_inner h he (by simp) (by simp)), replaceAll_eq]
  exact ⟨_, rfl, isCompute_compute _ _ accumulate⟩

/-- Loads are kept as they are or not at all. -/
theorem edit_loads (hp : ForwardPairs items pairs) (h : BufferBody items)
    (hl : items[q]? = some (.op l)) : (l.loads q).filterMap (elideEdit items pairs erased)
      = (l.loads q).filter fun i => Kept items erased i.id := by
  rw [← List.filterMap_eq_filter]
  refine List.filterMap_congr fun i hi => ?_
  obtain ⟨k, hk, rfl⟩ := List.mem_mapIdx.mp hi
  rw [elideEdit_eq, Option.guard]
  by_cases hkept : Kept items erased (loadInst q k l.ins[k].1 l.ins[k].2).id = true
  · rw [if_pos hkept, if_pos hkept]
    have hid := (of_decide_eq_true hkept).1
    have hx : l.ins[k]? = some (l.ins[k].1, l.ins[k].2) := List.getElem?_eq_getElem hk
    rcases hp.stays h hl (.load hx) hid with hsame | ⟨-, accumulate, hop⟩ | ⟨t, t', hop, -⟩
    · rw [hsame]
    · cases l <;> cases hop
    · cases hop
  · rw [if_neg hkept, if_neg hkept]

/-- A matmul is left as it is, but for its store. -/
theorem edit_block (hp : ForwardPairs items pairs) (h : BufferBody items)
    (he : ErasedIds items erased) (hl : items[q]? = some (.op l)) (hins : l.ins = [])
    (his : ∀ i ∈ is, i ∈ unrollBody (l.expand q) ∧ i.id.pos ≠ .store) :
    is.filterMap (elideEdit items pairs erased) = is
      ∧ is.filter (fun i => Kept items erased i.id) = is := by
  have hedit : ∀ i ∈ is, elideEdit items pairs erased i = some i := fun i hi =>
    elideEdit_block hp h he hl hins (lowered_unrolled h hl (his i hi).1) (his i hi).2
  constructor
  · rw [List.filterMap_congr hedit, List.filterMap_some]
  · refine List.filter_eq_self.mpr fun i hi => ?_
    have hsome := hedit i hi
    rw [elideEdit_eq] at hsome
    by_contra hnot
    rw [if_neg hnot] at hsome
    cases hsome

theorem neutralInsts_flatMap {f : Nat → List Inst} {bs : List Nat}
    (h : ∀ b ∈ bs, NeutralInsts layout (f b)) : NeutralInsts layout (bs.flatMap f) := by
  induction bs with
  | nil => exact neutralInsts_nil
  | cons b bs ih =>
      rw [List.flatMap_cons]
      exact (h b List.mem_cons_self).append (ih fun c hc => h c (List.mem_cons_of_mem b hc))

/-- The lines of an operation: loads, SYNC, complete rounds, and the store. -/
structure ItemShape (layout : Layout) (is loads store : List Inst) : Prop where
  shape : ∃ id rest, is = loads ++ ⟨id, .sync⟩ :: (rest ++ store) ∧ NeutralInsts layout rest
  loads : Loads loads

theorem filterMap_store : [storeInst q l].filterMap (elideEdit items pairs erased)
    = (elideEdit items pairs erased (storeInst q l)).toList := by
  rw [List.filterMap_cons]
  cases elideEdit items pairs erased (storeInst q l) <;> rfl

/-- The rounds of a matmul are complete. -/
theorem neutral_matmulRounds (hs : layout.Separate) {lhs rhs dst : Value}
    (hv : (Lowering.matmul lhs rhs dst).verify = true) (hl : lhs.isBuffer = true)
    (hr : rhs.isBuffer = true) {n : Nat} (hn : matmulK lhs / tileK = n + 1) :
    NeutralInsts layout (matmulRounds q lhs rhs dst n) := by
  have hfirst : NeutralInsts layout
      [⟨⟨q, .compute⟩, (Lowering.matmul lhs rhs dst).compute q false⟩,
        ⟨⟨q, .fence 1⟩, .sync⟩] := neutralInsts_compute rfl
  refine hfirst.append (neutralInsts_flatMap fun b hb => ?_)
  rw [List.mem_range] at hb
  have hblock : Loads _ :=
    @loads_block q lhs rhs dst hv hl hr (b + 1) (by omega) .loopSubIn .loopLoad
  exact hblock.neutralInsts hs (neutralInsts_compute rfl)

/-- **What the pass leaves of a matmul**: everything but, perhaps, the store. -/
theorem item_shape_matmul (hs : layout.Separate) (hp : ForwardPairs items pairs)
    (he : ErasedIds items erased) (h : BufferBody items) {lhs rhs dst : Value}
    (hl : items[q]? = some (.op (.matmul lhs rhs dst))) :
    ItemShape layout
      (effects ((unrollBody (lowerMatmul q lhs rhs dst)).filterMap
        (elideEdit items pairs erased)))
      (((Lowering.matmul lhs rhs dst).firstLoads q).filter fun i => Kept items erased i.id)
      (elideEdit items pairs erased (storeInst q (.matmul lhs rhs dst))).toList := by
  obtain ⟨hv, -⟩ := h.op hl
  obtain ⟨-, -, -, hK, hdvd⟩ := verify_matmul hv
  have hbl : lhs.isBuffer = true := h.source hl (by simp [Lowering.sources])
  have hbr : rhs.isBuffer = true := h.source hl (by simp [Lowering.sources])
  obtain ⟨n, hn⟩ : ∃ n, matmulK lhs / tileK = n + 1 :=
    ⟨matmulK lhs / tileK - 1, by unfold tileK at hdvd ⊢; omega⟩
  -- the pass leaves everything but the store as it is
  have hinner := fun i => @matmul_inner q lhs rhs dst hbl hbr n hn i
  obtain ⟨hedit, -⟩ := edit_block hp h he hl rfl hinner
  have hkept := (edit_block hp h he hl rfl fun i hi =>
    hinner i (List.mem_append_left _ hi)).2
  have hrounds : NeutralInsts layout (matmulRounds q lhs rhs dst n) :=
    neutral_matmulRounds hs hv hbl hbr hn
  rw [effects_elided, hkept]
  refine ⟨⟨⟨q, .fence 0⟩, matmulRounds q lhs rhs dst n, ?_, hrounds⟩,
    @loads_block q lhs rhs dst hv hbl hbr 0 (by omega) .subIn .load⟩
  rw [effects_matmul hbl hbr hn, ← List.cons_append, ← List.append_assoc,
    List.filterMap_append, hedit, filterMap_store]
  simp only [List.append_assoc, List.cons_append]

/-- **What the pass leaves of an operation.** -/
theorem item_shape (hs : layout.Separate) (hp : ForwardPairs items pairs)
    (he : ErasedIds items erased) (h : BufferBody items) (hl : items[q]? = some (.op l)) :
    ItemShape layout
      (effects ((unrollBody (l.expand q)).filterMap (elideEdit items pairs erased)))
      ((l.firstLoads q).filter fun i => Kept items erased i.id)
      (elideEdit items pairs erased (storeInst q l)).toList := by
  by_cases hins : l.ins = []
  · cases l with
    | ewise | act | reduce => cases hins
    | matmul lhs rhs dst => exact item_shape_matmul hs hp he h hl
  · have hloads : l.firstLoads q = l.loads q := by
      cases l with
      | matmul => exact absurd rfl hins
      | ewise | act | reduce => rfl
    obtain ⟨i, hi, hcompute⟩ := @edit_compute items pairs erased q l h he false
    refine ⟨⟨⟨q, .fence 0⟩, [i, ⟨⟨q, .fence 1⟩, .sync⟩], ?_, neutralInsts_compute hcompute⟩, ?_⟩
    · rw [effects_elided, effects_expand hins, hloads, List.filterMap_append,
        edit_loads hp h hl, List.filterMap_cons_some (edit_sync h he 0),
        List.filterMap_append, filterMap_store, List.filterMap_cons_some hi,
        List.filterMap_cons_some (edit_sync h he 1)]
      rfl
    · rw [hloads]
      exact (loads_whole (h.op hl).1 fun x hx => h.source hl hx).sublist List.filter_sublist

end Operations

/-! ## Neighbours -/

/-- The operation right before item `p`. -/
def lastOp (items : List (Item Lowering)) : Nat → Option (Nat × Lowering)
  | 0 => none
  | p + 1 => match items[p]? with
    | some (.op l) => some (p, l)
    | _ => lastOp items p

/-- **Operation `l'` at `j` reads no K block of what the operation before it stores**,
unless there is nothing to read or the store is elided. -/
def StoreFenced (items : List (Item Lowering)) (j : Nat) (l' : Lowering) : Prop :=
  ∀ i l, lastOp items j = some (i, l) → l.target i ∈ l'.blocks →
    (l.target i).type.numElements = 0 ∨ ElidedStore items i (l.target i)

def SyncsSuffice (items : List (Item Lowering)) : Prop :=
  ∀ j l, items[j]? = some (.op l) → StoreFenced items j l

section Neighbours

variable {items : List (Item Lowering)} {pairs : List (Value × Value)} {erased : List OpId}
  {i j p : Nat} {l l' : Lowering} {layout : Layout} {seen ls : List EasmInsn}

theorem lastOp_op (hl : items[p]? = some (.op l)) : lastOp items (p + 1) = some (p, l) := by
  rw [lastOp, hl]

theorem lastOp_skip {item : Item Lowering} (hitem : items[p]? = some item)
    (hop : ∀ l, item ≠ .op l) : lastOp items (p + 1) = lastOp items p := by
  rw [lastOp, hitem]
  cases item with
  | define | ret => rfl
  | op l => exact absurd rfl (hop l)

theorem lastOp_some (h : lastOp items p = some (i, l)) : items[i]? = some (.op l) ∧ i < p
    ∧ ∀ k m, i < k → k < p → items[k]? ≠ some (.op m) := by
  induction p with
  | zero => cases h
  | succ p ih =>
      rw [lastOp] at h
      split at h
      · rename_i m hm
        cases h
        exact ⟨hm, by omega, fun k _ hk hkp => absurd hkp (by omega)⟩
      · rename_i hnot
        obtain ⟨hl, hi, hbetween⟩ := ih h
        refine ⟨hl, by omega, fun k m hk hkp hkm => ?_⟩
        by_cases hlast : k = p
        · rw [hlast] at hkm
          exact hnot m hkm
        · exact hbetween k m hk (by omega) hkm

/-- What it stores is the last that is stored there. -/
theorem lastStoreTo_lastOp (h : lastOp items p = some (i, l)) :
    lastStoreTo items (l.target i) p = some i := by
  obtain ⟨hl, hi, hbetween⟩ := lastOp_some h
  obtain ⟨k, hk, hle⟩ := lastStoreTo_isSome hi hl rfl
  obtain ⟨hkp, ⟨m, hm, -⟩, -⟩ := lastStoreTo_some hk
  rcases Nat.eq_or_lt_of_le hle with rfl | hlt
  · exact hk
  · exact absurd hm (hbetween k m hlt hkp)

/-- The store that waits for the next SYNC. -/
def pendingStore (items : List (Item Lowering)) (pairs : List (Value × Value))
    (erased : List OpId) (p : Nat) : List Inst :=
  match lastOp items p with
  | some (i, l) => (elideEdit items pairs erased (storeInst i l)).toList
  | none => []

theorem edit_store_elided (he : ErasedIds items erased)
    (hes : ElidedStore items i (l.target i)) :
    elideEdit items pairs erased (storeInst i l) = none := by
  have herased : (storeInst i l).id ∈ erased := (he _).mpr ⟨i, _, hes, rfl⟩
  rw [elideEdit_eq, if_neg fun hkept => (of_decide_eq_true hkept).2 herased]

theorem edit_store_kept (hp : ForwardPairs items pairs) (he : ErasedIds items erased)
    (h : BufferBody items) (hl : items[i]? = some (.op l))
    (hes : ¬ ElidedStore items i (l.target i)) :
    elideEdit items pairs erased (storeInst i l) = some (storeInst i l) := by
  have hkept : Kept items erased (storeInst i l).id = true := by
    refine decide_eq_true ⟨not_mem_forwardedIds h fun k hk => ?_, fun hmem => hes ?_⟩
    · cases hk
    · obtain ⟨j, x, hes', heq⟩ := (he _).mp hmem
      cases heq
      exact (exists_elidedStore hl).mp ⟨x, hes'⟩
  rw [elideEdit_eq, if_pos hkept, storeInst_stays hp h hl]

theorem target_f16 (hv : l.verify = true) : ∃ rows cols, F16Shape (l.target p) rows cols := by
  cases l with
  | matmul lhs rhs dst =>
      obtain ⟨-, -, hdst, -⟩ := verify_matmul hv
      exact ⟨_, _, hdst⟩
  | ewise kind big small out =>
      obtain ⟨rows, cols, m, n, hout, -⟩ := verify_ewise hv
      exact ⟨rows, cols, hout⟩
  | act kind src dst =>
      obtain ⟨rows, cols, hdst, -⟩ := verify_act hv
      exact ⟨rows, cols, hdst⟩
  | reduce kind src dst reshape =>
      obtain ⟨rows, cols, -, hdst⟩ := verify_reduce hv p
      exact ⟨rows, 1, hdst⟩

/-- The line of a store, unless it is elided. -/
theorem store_lines (hp : ForwardPairs items pairs) (he : ErasedIds items erased)
    (h : BufferBody items) (hl : items[i]? = some (.op l))
    (hst : EmitsLines layout (elideEdit items pairs erased (storeInst i l)).toList seen) :
    (ElidedStore items i (l.target i) ∧ seen = [])
      ∨ (¬ ElidedStore items i (l.target i)
        ∧ ∃ y, seen = [y] ∧ Moves layout (l.outTile i) (l.target i) y) := by
  by_cases hes : ElidedStore items i (l.target i)
  · rw [edit_store_elided he hes] at hst
    exact .inl ⟨hes, hst.nil⟩
  · rw [edit_store_kept hp he h hl hes] at hst
    obtain ⟨d, e, hop, rfl⟩ := hst.single
    obtain ⟨rows, cols, hshape⟩ := target_f16 (p := i) (h.op hl).1
    exact .inr ⟨hes, emit_store hshape (hshape.sram (outTile_type (h.op hl).1 i)).1 hop⟩

/-- What a load of an operation reads: a block, or a whole operand. -/
theorem firstLoads_source (hbuf : ∀ x ∈ l.sources, x.isBuffer = true) {inst : Inst}
    (hi : inst ∈ l.firstLoads j) {view tile : Value} (hop : inst.op = .dmaLoad view tile) :
    view.root ∈ l.blocks
      ∨ ∃ k t, l.ins[k]? = some (view.root, t) ∧ inst.id = ⟨j, .load k⟩ := by
  by_cases hins : l.ins = []
  · cases l with
    | ewise | act | reduce => cases hins
    | matmul lhs rhs dst =>
        have hl := (isBuffer_cases (hbuf lhs (by simp [Lowering.sources]))).1
        have hr := (isBuffer_cases (hbuf rhs (by simp [Lowering.sources]))).1
        simp only [Lowering.firstLoads, List.mem_cons, List.not_mem_nil, or_false] at hi
        rcases hi with rfl | rfl <;> cases hop
        · exact .inl (by simp [subLhs, toDDR, Value.root, Lowering.blocks, hl])
        · exact .inl (by simp [subRhs, toDDR, Value.root, Lowering.blocks, hr])
  · have hloads : l.firstLoads j = l.loads j := by
      cases l with
      | matmul => exact absurd rfl hins
      | ewise | act | reduce => rfl
    rw [hloads] at hi
    obtain ⟨k, hk, rfl⟩ := List.mem_mapIdx.mp hi
    have hx : l.ins[k]? = some (l.ins[k].1, l.ins[k].2) := List.getElem?_eq_getElem hk
    cases hop
    refine .inr ⟨k, l.ins[k].2, ?_, rfl⟩
    show _ = some (l.ins[k].1.root, _)
    rw [(isBuffer_cases (hbuf _ (ins_source hx))).1, hx]

theorem isTile_root {v : Value} (h : v.isTile = true) : v.root = v := by
  cases v with
  | alloc => rfl
  | _ => cases h

/-- **A load behind a store** conflicts with it only over a block. -/
theorem StoreFenced.hazardFree (hs : layout.Separate) (hp : ForwardPairs items pairs)
    (he : ErasedIds items erased) (h : BufferBody items) (hl' : items[j]? = some (.op l'))
    (hfence : StoreFenced items j l')
    (hseen : EmitsLines layout (pendingStore items pairs erased j) seen)
    (hls : EmitsLines layout ((l'.firstLoads j).filter fun i => Kept items erased i.id) ls)
    (hload : Loads ((l'.firstLoads j).filter fun i => Kept items erased i.id)) :
    ∀ x ∈ ls, ∀ z ∈ seen, HazardFree z x := by
  intro x hx z hz
  rw [pendingStore] at hseen
  cases hlast : lastOp items j with
  | none =>
      rw [hlast] at hseen
      rw [hseen.nil] at hz
      cases hz
  | some prev =>
      obtain ⟨i, l⟩ := prev
      rw [hlast] at hseen
      dsimp only at hseen
      obtain ⟨hl, -, -⟩ := lastOp_some hlast
      rcases store_lines hp he h hl hseen with ⟨-, rfl⟩ | ⟨hes, y, rfl, hmoves⟩
      · cases hz
      obtain rfl := List.mem_singleton.mp hz
      obtain ⟨inst, hinst, view, tile, hiop, hmoves'⟩ := hload.lines hs hls hx
      obtain ⟨view', tile', heq, -, -, p, k, t, rfl⟩ := hload.load inst hinst
      rw [hiop] at heq
      cases heq
      obtain ⟨hinst, hkept⟩ := List.mem_filter.mp hinst
      refine hmoves.noConflict hs hmoves' ?_ ?_ ?_
      · by_cases hne : l.target i = view.root
        · refine .inr ?_
          rcases firstLoads_source (fun x hx => h.source hl' hx) hinst hiop with hblock |
            ⟨k', t', hins, hid⟩
          · rw [← hne] at hblock ⊢
            obtain ⟨rows, cols, hshape⟩ := target_f16 (p := i) (h.op hl).1
            have hzero := (hfence i l hlast hblock).resolve_right hes
            rw [hshape.elements] at hzero
            rw [hshape.size, hzero]
          · -- what was stored is forwarded
            refine absurd ?_ (of_decide_eq_true hkept).1
            rw [hid]
            refine (mem_forwardedIds h).mpr ⟨j, k', view.root, t', i, l, ⟨⟨l', hl', hins⟩, ?_, hl⟩,
              rfl⟩
            rw [← hne]
            exact lastStoreTo_lastOp hlast
        · exact .inl hne
      · obtain ⟨t', ht'⟩ := outTile_eq i l
        rw [ht']
        simp [tileOut, tileIn]
      · intro htile
        have hroot := h.target_root hl
        rw [htile, isTile_root rfl] at hroot
        cases hroot

/-- **A K block of what was just stored** conflicts with the store. -/
theorem storeFenced_of_hazardFree (hs : layout.Separate) (hp : ForwardPairs items pairs)
    (he : ErasedIds items erased) (h : BufferBody items) (hl' : items[j]? = some (.op l'))
    (hseen : EmitsLines layout (pendingStore items pairs erased j) seen)
    (hls : EmitsLines layout ((l'.firstLoads j).filter fun i => Kept items erased i.id) ls)
    (hfree : ∀ x ∈ ls, ∀ z ∈ seen, HazardFree z x) : StoreFenced items j l' := by
  intro i l hlast hblock
  by_contra hnot
  rw [not_or] at hnot
  obtain ⟨hnonzero, hes⟩ := hnot
  obtain ⟨hl, -, -⟩ := lastOp_some hlast
  rw [pendingStore, hlast] at hseen
  dsimp only at hseen
  rw [edit_store_kept hp he h hl hes] at hseen
  obtain ⟨d, e, hop, rfl⟩ := hseen.single
  cases l' with
  | ewise | act | reduce => cases hblock
  | matmul lhs rhs dst =>
      obtain ⟨hlhs, hrhs, -, hK, hdvd⟩ := verify_matmul (h.op hl').1
      have hsource : ∀ x ∈ [lhs, rhs], x.isBuffer = true := fun x hx => h.source hl' hx
      have hblock₀ : ∀ i ∈ (Lowering.matmul lhs rhs dst).firstLoads j,
          i ∈ unrollBody ((Lowering.matmul lhs rhs dst).expand j) ∧ i.id.pos ≠ .store := by
        obtain ⟨h₀, h₁⟩ := block_unrolled (q := j) (h.op hl').1 (hsource lhs (by simp))
          (hsource rhs (by simp))
        intro i hi
        simp only [Lowering.firstLoads, List.mem_cons, List.not_mem_nil, or_false] at hi
        rcases hi with rfl | rfl
        · exact ⟨h₀, by simp⟩
        · exact ⟨h₁, by simp⟩
      rw [(edit_block hp h he hl' rfl hblock₀).2] at hls
      obtain ⟨d₀, e₀, ls₁, hop₀, hls₁, rfl⟩ := hls.cons
      obtain ⟨d₁, e₁, hop₁, rfl⟩ := hls₁.single
      have hKle : tileK ≤ matmulK lhs := Nat.le_of_dvd hK (Nat.dvd_of_mod_eq_zero hdvd)
      have hpos : 0 < (l.target i).type.numElements := Nat.pos_of_ne_zero hnonzero
      simp only [Lowering.blocks, List.mem_cons, List.not_mem_nil, or_false] at hblock
      -- the store and the first block of the operand share the first element
      rcases hblock with heq | heq
      · rw [heq] at hpos
        obtain ⟨hM, hK⟩ := hlhs.pos hpos
        rw [storeInst, heq] at hop
        obtain ⟨y, y', hy, hy', hconflict⟩ := store_conflicts_load hs hlhs hM hK hM
          (Nat.le_refl _) (by decide) hKle hop hop₀
        refine hconflict (hfree y' ?_ y ?_)
        · simp [hy']
        · simp [hy]
      · rw [heq] at hpos
        obtain ⟨hK, hN⟩ := hrhs.pos hpos
        rw [storeInst, heq] at hop
        obtain ⟨y, y', hy, hy', hconflict⟩ := store_conflicts_load hs hrhs hK hN
          (by decide) hKle hN (Nat.le_refl _) hop hop₁
        refine hconflict (hfree y' ?_ y ?_)
        · simp [hy']
        · simp [hy]

end Neighbours

/-! ## Bodies -/

section Bodies

variable {items : List (Item Lowering)} {pairs : List (Value × Value)} {erased : List OpId}
  {p : Nat} {l : Lowering} {layout : Layout} {seen xs : List EasmInsn} {is : List Inst}

/-- Operations without a mnemonic. -/
theorem lines_silent (h : ∀ i ∈ is, i.op.opcode? = none) (he : EmitsLines layout is xs) :
    xs = [] := by
  induction is generalizing xs with
  | nil => exact he.nil
  | cons i is ih =>
      obtain ⟨d, e, ys, hop, hys, rfl⟩ := he.cons
      rw [ih (fun j hj => h j (List.mem_cons_of_mem i hj)) hys, List.append_nil]
      have hnone := h i List.mem_cons_self
      cases emitOp_step hop with
      | line _ _ _ hline _ =>
          rw [hnone] at hline
          cases hline
      | sync hsync =>
          rw [hsync] at hnone
          cases hnone
      | dropped | silent => rfl

theorem opcode_replaceAll (op : Op) : (replaceAll pairs op).opcode? = op.opcode? := by
  rw [replaceAll_eq]
  cases op <;> rfl

theorem silent_elided (h : ∀ i ∈ is, i.op.opcode? = none) :
    ∀ i ∈ effects (is.filterMap (elideEdit items pairs erased)), i.op.opcode? = none := by
  intro i hi
  obtain ⟨j, hj, hedit⟩ := List.mem_filterMap.mp (mem_effects.mp hi).1
  rw [elideEdit_eq] at hedit
  split_ifs at hedit
  cases hedit
  exact (opcode_replaceAll j.op).trans (h j hj)

/-- One item more: only operations are checked. -/
theorem fenced_succ {item : Item Lowering} (hitem : items[p]? = some item) :
    (∀ j l, p ≤ j → items[j]? = some (.op l) → StoreFenced items j l)
      ↔ (∀ l, item = .op l → StoreFenced items p l)
        ∧ ∀ j l, p + 1 ≤ j → items[j]? = some (.op l) → StoreFenced items j l := by
  constructor
  · intro h
    refine ⟨fun l hl => h p l (Nat.le_refl p) (hl ▸ hitem), fun j l hj => h j l (by omega)⟩
  · rintro ⟨hp, h⟩ j l hj hl
    by_cases heq : j = p
    · subst heq
      rw [hitem] at hl
      exact hp l (Option.some.inj hl)
    · exact h j l (by omega) hl

/-- **One operation**: its loads against the store that waits, and then its own store
waits. -/
theorem clean_operation (hs : layout.Separate) (hp : ForwardPairs items pairs)
    (he : ErasedIds items erased) (h : BufferBody items) (hl : items[p]? = some (.op l))
    (hseen : EmitsLines layout (pendingStore items pairs erased p) seen)
    (hxs : EmitsLines layout (effects ((unrollBody (l.expand p)).filterMap
      (elideEdit items pairs erased))) xs) :
    ∃ st, EmitsLines layout (pendingStore items pairs erased (p + 1)) st
      ∧ ∀ ys, Clean seen (xs ++ ys) ↔ StoreFenced items p l ∧ Clean st ys := by
  obtain ⟨⟨id, inner, hshape, hneutral⟩, hloads⟩ := item_shape hs hp he h hl
  rw [hshape] at hxs
  obtain ⟨ls, xs₁, hls, hxs₁, rfl⟩ := hxs.append
  obtain ⟨xs₂, hxs₂, rfl⟩ := emitsLines_sync hxs₁
  obtain ⟨ms, st, hms, hst, rfl⟩ := hxs₂.append
  have hpending : pendingStore items pairs erased (p + 1)
      = (elideEdit items pairs erased (storeInst p l)).toList := by
    rw [pendingStore, lastOp_op hl]
  have hlines := store_lines hp he h hl hst
  have hpair : st.Pairwise HazardFree := by
    rcases hlines with ⟨-, rfl⟩ | ⟨-, y, rfl, -⟩
    · exact .nil
    · exact List.pairwise_singleton _ _
  have hnosync : ∀ y ∈ st, y.isSync = false := by
    rcases hlines with ⟨-, rfl⟩ | ⟨-, y, rfl, hmoves⟩
    · simp
    · simp [hmoves.noSync]
  refine ⟨st, hpending ▸ hst, fun ys => ?_⟩
  -- the loads end the segment that the waiting store has begun
  rw [List.append_assoc, List.cons_append, List.append_assoc]
  refine (clean_round (fun x hx => hloads.noSync hs hls hx) (hloads.pairwise hs hls)
    (hneutral ms hms)).trans (and_congr ⟨?_, ?_⟩ (clean_store hpair hnosync))
  · exact fun hfree => storeFenced_of_hazardFree hs hp he h hl hseen hls hfree
  · exact fun hfence => hfence.hazardFree hs hp he h hl hseen hls hloads

/-- An item that is no operation emits nothing. -/
theorem lines_item {item : Item Lowering} (hop : ∀ l, item ≠ .op l)
    (hxs : EmitsLines layout (effects ((unrollBody (item.expand p)).filterMap
      (elideEdit items pairs erased))) xs) : xs = [] := by
  refine lines_silent (silent_elided fun i hi => ?_) hxs
  cases item with
  | define v =>
      obtain rfl := List.mem_singleton.mp hi
      rfl
  | ret vs =>
      obtain rfl := List.mem_singleton.mp hi
      rfl
  | op l => exact absurd rfl (hop l)

/-- **The rest of a body**, behind the store that waits. -/
theorem clean_body (hs : layout.Separate) (hp : ForwardPairs items pairs)
    (he : ErasedIds items erased) (h : BufferBody items) {rest : List (Item Lowering)}
    (hrest : items.drop p = rest)
    (hseen : EmitsLines layout (pendingStore items pairs erased p) seen)
    (hxs : EmitsLines layout (effects ((unrollBody (expandFrom p rest)).filterMap
      (elideEdit items pairs erased))) xs) :
    Clean seen xs ↔ ∀ j l, p ≤ j → items[j]? = some (.op l) → StoreFenced items j l := by
  induction rest generalizing p seen xs with
  | nil =>
      rw [hxs.nil]
      refine iff_of_true trivial fun j l hj hl => ?_
      have hlen := List.drop_eq_nil_iff.mp hrest
      have hlt := (List.getElem?_eq_some_iff.mp hl).1
      omega
  | cons item rest ih =>
      have hitem : items[p]? = some item := by
        rw [← List.head?_drop, hrest]
        rfl
      have hdrop : items.drop (p + 1) = rest := by
        rw [← List.tail_drop, hrest]
        rfl
      rw [expandFrom, unrollBody_append, List.filterMap_append, effects_append] at hxs
      obtain ⟨ys, zs, hys, hzs, rfl⟩ := hxs.append
      rw [fenced_succ hitem]
      by_cases hop : ∃ l, item = .op l
      · obtain ⟨l, rfl⟩ := hop
        obtain ⟨st, hst, hclean⟩ := clean_operation hs hp he h hitem hseen hys
        rw [hclean zs, ih hdrop hst hzs]
        simp only [Item.op.injEq, forall_eq']
      · have hnone : ∀ l, item ≠ .op l := fun l hl => hop ⟨l, hl⟩
        rw [lines_item hnone hys, List.nil_append, and_iff_right fun l hl => absurd hl (hnone l)]
        refine ih hdrop ?_ hzs
        rw [pendingStore, lastOp_skip hitem hnone]
        exact hseen

/-- The stream of a compiled function: the lines of what the pass leaves. -/
theorem compiled_lines {canonicalize : List Stmt → List Stmt}
    {args : List (Option MemRefType)} {out : List EasmInsn} (h : BufferBody items)
    (hp : ForwardPairs items pairs) (he : ErasedIds items erased)
    (hedit : elideCopies (expandFrom 0 items)
      = editBody (elideEdit items pairs erased) (expandFrom 0 items))
    (hkept : effects (unrollBody (canonicalize (elideCopies (expandFrom 0 items))))
      = effects (unrollBody (elideCopies (expandFrom 0 items))))
    (hemit : eclipseToEasm layout (compiledModule canonicalize args items) = some out) :
    EmitsLines layout (effects ((unrollBody (expandFrom 0 items)).filterMap
      (elideEdit items pairs erased))) out := by
  obtain ⟨e, hlines, rfl⟩ := Option.map_eq_some_iff.mp hemit
  rw [compiledModule, unrollModule, List.flatMap_singleton] at hlines
  rw [hedit, unrollBody_elided hp h he, ← hedit] at hkept
  refine ⟨DESC_STARTADDR, e.2, ?_⟩
  rw [← hkept, emitInsts_effects]
  exact hlines

end Bodies

/-- The segments of a compiled stream. -/
theorem clean_compiled {canonicalize : List Stmt → List Stmt}
    {args : List (Option MemRefType)} {src : List (Item LinalgOp)}
    {items : List (Item Lowering)} {layout : Layout} {out : List EasmInsn}
    (hconv : convertItems src = some items) (hbody : BufferBody items)
    (hkept : effects (unrollBody (canonicalize (elideCopies (expandFrom 0 items))))
      = effects (unrollBody (elideCopies (expandFrom 0 items))))
    (hcompile : eclipseCompile canonicalize args src = some (layout, out))
    (hs : layout.Separate) : Clean [] out ↔ SyncsSuffice items := by
  obtain ⟨-, hemit⟩ := eclipseCompile_eq hconv hcompile
  obtain ⟨pairs, erased, hp, he, hedit⟩ := elideCopies_eq hbody
  have hout := compiled_lines hbody hp he hedit hkept hemit
  have hnone : EmitsLines layout (pendingStore items pairs erased 0) [] := ⟨0, 0, rfl⟩
  refine (clean_body hs hp he hbody rfl hnone hout).trans ?_
  exact ⟨fun h j l hl => h j l (Nat.zero_le j) hl, fun h j l _ hl => h j l hl⟩

/-- **Where conflicts are fenced** in the stream that conversion, `eclipse-elide-copies`,
`eclipse-allocate` and `eclipse-to-easm` make of a function, its buffers apart. -/
theorem conflictsFenced_iff {args : List (Option MemRefType)} {src : List (Item LinalgOp)}
    {items : List (Item Lowering)} {layout : Layout} {out : List EasmInsn}
    (hconv : convertItems src = some items) (hbody : BufferBody items)
    (hcompile : eclipseCompile id args src = some (layout, out)) (hs : layout.Separate) :
    ConflictsFenced out ↔ SyncsSuffice items := by
  have hclean : Clean [] out ↔ SyncsSuffice items := clean_compiled hconv hbody rfl hcompile hs
  exact segments_iff_conflictsFenced.symm.trans hclean

/-! ### `y = exp (a * b)` -/

def matmulExpSource : List (Item LinalgOp) :=
  [.define (chainAlloc 0 1 16),
    .op (.matmul (chainArg 0 1 16) (chainArg 1 16 16) (chainAlloc 0 1 16)),
    .define (chainAlloc 2 1 16),
    .op (.exp (chainAlloc 0 1 16) (chainAlloc 2 1 16)),
    .ret [chainAlloc 2 1 16]]

def matmulExp : List (Item Lowering) :=
  [.define (chainAlloc 0 1 16),
    .op (.matmul (chainArg 0 1 16) (chainArg 1 16 16) (chainAlloc 0 1 16)),
    .define (chainAlloc 2 1 16),
    .op (.act .EXP (chainAlloc 0 1 16) (chainAlloc 2 1 16)),
    .ret [chainAlloc 2 1 16]]

/-- The matmul comes first, and what reads its result loads it whole. -/
theorem syncsSuffice_matmulExp : SyncsSuffice matmulExp := by
  intro j l hl i m hlast hblock
  rcases j with _ | _ | _ | _ | j
  · cases hl
  · -- nothing is stored before the matmul
    cases hlast
  · cases hl
  · cases hl
    cases hblock
  · cases j <;> cases hl

theorem conflictsFenced_iff_matmulExp : ∃ layout out,
    eclipseCompile id [some (f16Type 1 16), some (f16Type 16 16)] matmulExpSource
        = some (layout, out)
      ∧ ConflictsFenced out := by
  have hrun : ((eclipseCompile id [some (f16Type 1 16), some (f16Type 16 16)]
      matmulExpSource).any fun r => decide r.1.Separate) = true := by decide +kernel
  obtain ⟨⟨layout, out⟩, hcompile, hs⟩ := (Option.any_eq_true _ _).mp hrun
  refine ⟨layout, out, hcompile, ?_⟩
  exact (@conflictsFenced_iff [some (f16Type 1 16), some (f16Type 16 16)] matmulExpSource
    matmulExp layout out rfl (by decide) hcompile (of_decide_eq_true hs)).mpr
    syncsSuffice_matmulExp

/-- **Where the SYNCs of a compiled stream suffice.** Its buffers apart, the hazard
checker is silent on it exactly when no matmul reads what the operation right before
it stores. -/
theorem syncs_suffice_iff {canonicalize : List Stmt → List Stmt}
    {args : List (Option MemRefType)} {src : List (Item LinalgOp)}
    {items : List (Item Lowering)} {layout : Layout} {out : List EasmInsn}
    (hconv : convertItems src = some items) (hbody : BufferBody items)
    (hcanon : Canonicalized (elideCopies (expandFrom 0 items))
      (canonicalize (elideCopies (expandFrom 0 items))))
    (hcompile : eclipseCompile canonicalize args src = some (layout, out))
    (hs : layout.Separate) : hazardCheck out = [] ↔ SyncsSuffice items :=
  hazardCheck_eq_nil_iff.trans (clean_compiled hconv hbody hcanon.kept hcompile hs)

/-! ### `d = (a * b) * c` -/

def matmulChainSource : List (Item LinalgOp) :=
  [.define (chainAlloc 0 1 16),
    .op (.matmul (chainArg 0 1 16) (chainArg 1 16 16) (chainAlloc 0 1 16)),
    .define (chainAlloc 2 1 1),
    .op (.matmul (chainAlloc 0 1 16) (chainArg 2 16 1) (chainAlloc 2 1 1)),
    .ret [chainAlloc 2 1 1]]

def matmulChain : List (Item Lowering) :=
  [.define (chainAlloc 0 1 16),
    .op (.matmul (chainArg 0 1 16) (chainArg 1 16 16) (chainAlloc 0 1 16)),
    .define (chainAlloc 2 1 1),
    .op (.matmul (chainAlloc 0 1 16) (chainArg 2 16 1) (chainAlloc 2 1 1)),
    .ret [chainAlloc 2 1 1]]

def matmulChainArgs : List (Option MemRefType) :=
  [some (f16Type 1 16), some (f16Type 16 16), some (f16Type 16 1)]

/-- The second matmul reads what the first one stores. -/
theorem not_syncsSuffice_matmulChain : ¬ SyncsSuffice matmulChain := by
  intro h
  rcases h 3 _ rfl 1 _ rfl (by simp [Lowering.blocks, Lowering.target]) with hzero | hes
  · cases hzero
  · obtain ⟨q, k, l, t, hl, hx⟩ := hes.read
    have hmem := List.mem_of_getElem? hl
    simp only [matmulChain, List.mem_cons, List.not_mem_nil, or_false, reduceCtorEq, false_or,
      Item.op.injEq] at hmem
    rcases hmem with rfl | rfl <;> cases hx

/-- **A conflict without a SYNC**: the first matmul's store, and the second one's load. -/
theorem not_conflictsFenced_matmulChain : ∃ layout out,
    eclipseCompile id matmulChainArgs matmulChainSource = some (layout, out)
      ∧ layout.Separate ∧ ¬ ConflictsFenced out := by
  have hrun : ((eclipseCompile id matmulChainArgs matmulChainSource).any fun r =>
      decide (r.1.Separate ∧ hazardCheck r.2 ≠ [])) = true := by decide +kernel
  obtain ⟨⟨layout, out⟩, hcompile, hboth⟩ := (Option.any_eq_true _ _).mp hrun
  obtain ⟨hs, hreport⟩ := of_decide_eq_true hboth
  refine ⟨layout, out, hcompile, hs, fun h => hreport ?_⟩
  exact hazardCheck_eq_nil_iff.mpr (segments_iff_conflictsFenced.mpr h)

theorem syncs_suffice_iff_matmulChain : ∃ layout out,
    eclipseCompile dropTwice matmulChainArgs matmulChainSource = some (layout, out)
      ∧ hazardCheck out ≠ [] := by
  have hrun : ((eclipseCompile dropTwice matmulChainArgs matmulChainSource).any fun r =>
      decide r.1.Separate) = true := by decide +kernel
  obtain ⟨⟨layout, out⟩, hcompile, hs⟩ := (Option.any_eq_true _ _).mp hrun
  refine ⟨layout, out, hcompile, fun h => not_syncsSuffice_matmulChain ?_⟩
  exact (@syncs_suffice_iff dropTwice matmulChainArgs matmulChainSource matmulChain layout out
    rfl (by decide) ⟨by decide +kernel, by decide +kernel⟩ hcompile (of_decide_eq_true hs)).mp h

end EclipseNpu.Compiler

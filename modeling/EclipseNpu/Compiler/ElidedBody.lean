import EclipseNpu.Compiler.BodySem
import EclipseNpu.Compiler.ElideCopies

/-!
# Compiler — ElidedBody

What `eclipse-elide-copies` does to a converted body over whole buffers. A load
of a whole buffer is dropped when an earlier item stored to that buffer, and the
item then works on the tile of the last such store (`Forwards`). A store is
erased when no other item stores to its buffer, all loads of the whole buffer
come later and were dropped, and nothing else but a matmul names the buffer
(`ElidedStore`): the pass looks through the subviews of a matmul without asking
what reads them.
-/

namespace EclipseNpu.Compiler

open EclipseNpu.Runtime

/-! ## Converted bodies -/

/-- An argument, a global or an alloc that is no tile. -/
def Value.isBuffer : Value → Bool
  | .blockArg .. | .getGlobal .. => true
  | v@(.alloc ..) => !v.isTile
  | _ => false

/-- An accepted item whose operands are buffers. -/
def Item.OverBuffers : Item Lowering → Prop
  | .define v => v.isBuffer = true
  | .op l => l.verify = true ∧ ∀ v ∈ l.operands, v.isBuffer = true
  | .ret vs => ∀ v ∈ vs, v.isBuffer = true

/-- **The body of a converted function** whose DDR operands are buffers. -/
def BufferBody (items : List (Item Lowering)) : Prop := ∀ item ∈ items, item.OverBuffers

instance (item : Item Lowering) : Decidable item.OverBuffers :=
  match item with
  | .define v => inferInstanceAs (Decidable (v.isBuffer = true))
  | .op l => inferInstanceAs (Decidable
      (l.verify = true ∧ ∀ v ∈ l.operands, v.isBuffer = true))
  | .ret vs => inferInstanceAs (Decidable (∀ v ∈ vs, v.isBuffer = true))

instance (items : List (Item Lowering)) : Decidable (BufferBody items) :=
  inferInstanceAs (Decidable (∀ item ∈ items, item.OverBuffers))

namespace Lowering

/-- The buffers it loads whole, with the types of the tiles. -/
def ins : Lowering → List (Value × MemRefType)
  | matmul .. => []
  | ewise _ big small _ => [(big, sramTypeOf big), (small, sramTypeOf small)]
  | act _ src dst => [(src, sramTypeOf dst)]
  | reduce _ src _ _ => [(src, sramTypeOf src)]

/-- The buffers it loads block by block. -/
def blocks : Lowering → List Value
  | matmul lhs rhs _ => [lhs, rhs]
  | _ => []

end Lowering

def loadInst (p k : Nat) (x : Value) (t : MemRefType) : Inst :=
  ⟨⟨p, .load k⟩, .dmaLoad (toDDR ⟨p, .castIn k⟩ x) (tileIn p k t)⟩

def storeInst (p : Nat) (l : Lowering) : Inst :=
  ⟨⟨p, .store⟩, .dmaStore (l.outTile p) (toDDR ⟨p, .castOut⟩ (l.target p))⟩

/-- The place of an operation that is neither a load nor the store. -/
def Pos.isTransfer : Pos → Bool
  | .load _ | .store => true
  | _ => false

/-- An operation of the expansion of `l`, item `p`. -/
inductive LoweredInst (p : Nat) (l : Lowering) : Inst → Prop
  | castIn {k : Nat} {x : Value} (hx : x ∈ l.sources) :
      LoweredInst p l ⟨⟨p, .castIn k⟩, .define (toDDR ⟨p, .castIn k⟩ x)⟩
  | castOut : LoweredInst p l ⟨⟨p, .castOut⟩, .define (toDDR ⟨p, .castOut⟩ (l.target p))⟩
  | expand {kind : ReduceKind} {src dst : Value} (hl : l = .reduce kind src dst true) :
      LoweredInst p l ⟨⟨p, .expand⟩, .define (expandInit p dst)⟩
  | tile {pos : Pos} {t : Value} (hpos : pos.isTransfer = false) (ht : t ∈ l.tiles p) :
      LoweredInst p l ⟨⟨p, pos⟩, .define t⟩
  | sub {pos pos' : Pos} {k : Nat} {x : Value} {offsets : List IndexValue}
      {sizes strides : List Nat} (hpos : pos.isTransfer = false) (hx : x ∈ l.blocks) :
      LoweredInst p l ⟨⟨p, pos⟩,
        .define (.subView ⟨p, pos'⟩ (toDDR ⟨p, .castIn k⟩ x) offsets sizes strides)⟩
  | load {k : Nat} {x : Value} {t : MemRefType} (hx : l.ins[k]? = some (x, t)) :
      LoweredInst p l (loadInst p k x t)
  | subLoad {pos pos' : Pos} {k : Nat} {x tile : Value} {offsets : List IndexValue}
      {sizes strides : List Nat} (hpos : pos ≠ .store) (hx : x ∈ l.blocks)
      (ht : tile ∈ l.tiles p) (hne : tile ≠ l.outTile p) :
      LoweredInst p l ⟨⟨p, pos⟩,
        .dmaLoad (.subView ⟨p, pos'⟩ (toDDR ⟨p, .castIn k⟩ x) offsets sizes strides) tile⟩
  | sync {pos : Pos} (hpos : pos.isTransfer = false) : LoweredInst p l ⟨⟨p, pos⟩, .sync⟩
  | compute {pos : Pos} {accumulate : Bool} (hpos : pos.isTransfer = false) :
      LoweredInst p l ⟨⟨p, pos⟩, l.compute p accumulate⟩
  | store : LoweredInst p l (storeInst p l)
  | free {pos : Pos} {t : Value} (hpos : pos.isTransfer = false) (ht : t ∈ l.tiles p) :
      LoweredInst p l ⟨⟨p, pos⟩, .dealloc t⟩

/-- The cast of source `k` goes with tile `k`. -/
theorem ins_fst {l : Lowering} (hl : l.ins ≠ []) : l.ins.map Prod.fst = l.sources := by
  cases l with
  | matmul => exact absurd rfl hl
  | ewise | act | reduce => rfl

theorem tiles_eq {l : Lowering} (hl : l.ins ≠ []) (p : Nat) :
    l.tiles p = tileOut p (sramTypeOf (l.target p))
      :: l.ins.mapIdx fun k i => tileIn p k i.2 := by
  cases l with
  | matmul => exact absurd rfl hl
  | ewise | act | reduce => rfl

theorem outTile_of_ins {l : Lowering} (hl : l.ins ≠ []) {p : Nat} :
    tileOut p (sramTypeOf (l.target p)) = l.outTile p := by
  cases l with
  | matmul => exact absurd rfl hl
  | ewise | act | reduce => rfl

/-- An expansion that loads whole buffers: the reshape of a reduction, then the
sequence. -/
theorem expand_eq {l : Lowering} (hl : l.ins ≠ []) (p : Nat) :
    ∃ pre, l.expand p = pre ++ emitSequence p l.ins (l.target p) (l.compute p false)
      ∧ ∀ st ∈ pre, ∃ kind src dst, l = .reduce kind src dst true
        ∧ st = stmt p .expand (.define (expandInit p dst)) := by
  cases l with
  | matmul => exact absurd rfl hl
  | ewise | act => exact ⟨[], rfl, by simp⟩
  | reduce kind src dst reshape =>
      cases reshape with
      | false => exact ⟨[], rfl, by simp⟩
      | true =>
          refine ⟨[_], rfl, fun st hst => ?_⟩
          exact ⟨kind, src, dst, rfl, List.mem_singleton.mp hst⟩

theorem lowered_emitSequence {l : Lowering} (hl : l.ins ≠ []) {p : Nat} {st : Stmt}
    (hst : st ∈ emitSequence p l.ins (l.target p) (l.compute p false)) :
    ∃ i, st = .inst i ∧ LoweredInst p l i := by
  have hin : ∀ k (hk : k < l.ins.length), tileIn p k l.ins[k].2 ∈ l.tiles p := by
    intro k hk
    rw [tiles_eq hl]
    exact List.mem_cons_of_mem _ (List.mem_mapIdx.mpr ⟨k, hk, rfl⟩)
  have hout : tileOut p (sramTypeOf (l.target p)) ∈ l.tiles p := by
    rw [tiles_eq hl]
    exact List.mem_cons_self
  simp only [emitSequence, List.mem_append, List.mem_mapIdx, List.mem_cons,
    List.mem_reverse, List.not_mem_nil, or_false, or_assoc] at hst
  rcases hst with ⟨k, hk, rfl⟩ | rfl | ⟨k, hk, rfl⟩ | rfl | ⟨k, hk, rfl⟩ | rfl | rfl
    | rfl | rfl | rfl | ⟨k, hk, rfl⟩
  · refine ⟨_, rfl, .castIn ?_⟩
    rw [← ins_fst hl]
    exact List.mem_map_of_mem (List.getElem_mem hk)
  · exact ⟨_, rfl, .castOut⟩
  · exact ⟨_, rfl, .tile rfl (hin k hk)⟩
  · exact ⟨_, rfl, .tile rfl hout⟩
  · exact ⟨_, rfl, .load (List.getElem?_eq_getElem hk)⟩
  · exact ⟨_, rfl, .sync rfl⟩
  · exact ⟨_, rfl, .compute rfl⟩
  · exact ⟨_, rfl, .sync rfl⟩
  · exact ⟨_, rfl, outTile_of_ins hl ▸ .store⟩
  · exact ⟨_, rfl, .free rfl hout⟩
  · exact ⟨_, rfl, .free rfl (hin k hk)⟩

theorem lowered_matmulBlock {p : Nat} {lhs rhs dst : Value} {off : IndexValue}
    {accumulate : Bool} {sub load fence : Nat → Pos} {mac : Pos}
    (hsub : ∀ k, (sub k).isTransfer = false) (hload : ∀ k, load k ≠ .store)
    (hfence : ∀ k, (fence k).isTransfer = false) (hmac : mac.isTransfer = false) {i : Inst}
    (hi : i ∈ matmulBlock p lhs rhs dst off accumulate sub load fence mac) :
    LoweredInst p (.matmul lhs rhs dst) i ∧ i.id.pos ≠ .store := by
  have hne : ∀ pos : Pos, pos.isTransfer = false → pos ≠ .store := by
    rintro pos hpos rfl
    cases hpos
  simp only [matmulBlock, List.mem_cons, List.not_mem_nil, or_false] at hi
  rcases hi with rfl | rfl | rfl | rfl | rfl | rfl | rfl
  · exact ⟨.sub (hsub 0) (by simp [Lowering.blocks]), hne _ (hsub 0)⟩
  · exact ⟨.sub (hsub 1) (by simp [Lowering.blocks]), hne _ (hsub 1)⟩
  · exact ⟨.subLoad (hload 0) (by simp [Lowering.blocks]) (by simp [Lowering.tiles])
        (by intro heq; cases heq),
      hload 0⟩
  · exact ⟨.subLoad (hload 1) (by simp [Lowering.blocks]) (by simp [Lowering.tiles])
        (by intro heq; cases heq),
      hload 1⟩
  · exact ⟨.sync (hfence 0), hne _ (hfence 0)⟩
  · exact ⟨.compute hmac, hne _ hmac⟩
  · exact ⟨.sync (hfence 1), hne _ (hfence 1)⟩

/-- A statement of an expansion. -/
def LoweredStmt (p : Nat) (l : Lowering) : Stmt → Prop
  | .inst i => LoweredInst p l i
  | .scfFor _ _ _ _ body =>
      l.ins = [] ∧ ∀ i ∈ body, LoweredInst p l i ∧ i.id.pos ≠ .store

/-- **What an expansion is made of**, with the places. -/
theorem lowered_of_mem {p : Nat} {l : Lowering} {st : Stmt} (hst : st ∈ l.expand p) :
    LoweredStmt p l st := by
  by_cases hl : l.ins = []
  · cases l with
    | matmul lhs rhs dst =>
        simp only [Lowering.expand, lowerMatmul, List.mem_append, List.mem_cons, List.mem_map,
          List.not_mem_nil, or_false, or_assoc] at hst
        rcases hst with rfl | rfl | rfl | rfl | rfl | rfl | ⟨i, hi, rfl⟩ | hloop | rfl | rfl
          | rfl | rfl
        · exact .castIn (by simp [Lowering.sources])
        · exact .castIn (by simp [Lowering.sources])
        · exact .castOut
        · exact .tile rfl (by simp [Lowering.tiles])
        · exact .tile rfl (by simp [Lowering.tiles])
        · exact .tile rfl (by simp [Lowering.tiles, Lowering.outTile])
        · exact (lowered_matmulBlock (fun _ => rfl) (fun _ h => by cases h) (fun _ => rfl)
            rfl hi).1
        · split_ifs at hloop
          · obtain rfl := List.mem_singleton.mp hloop
            refine ⟨rfl, fun i hi => ?_⟩
            exact lowered_matmulBlock (fun _ => rfl) (fun _ h => by cases h) (fun _ => rfl) rfl hi
          · cases hloop
        · exact .store
        · exact .free rfl (by simp [Lowering.tiles, Lowering.outTile])
        · exact .free rfl (by simp [Lowering.tiles])
        · exact .free rfl (by simp [Lowering.tiles])
    | ewise | act | reduce => cases hl
  · obtain ⟨pre, hexpand, hpre⟩ := expand_eq hl p
    rw [hexpand] at hst
    rcases List.mem_append.mp hst with hst | hst
    · obtain ⟨kind, src, dst, rfl, rfl⟩ := hpre st hst
      exact .expand rfl
    · obtain ⟨i, rfl, hi⟩ := lowered_emitSequence hl hst
      exact hi

theorem lowered_bodyInsts {p : Nat} {l : Lowering} {i : Inst}
    (hi : i ∈ bodyInsts (l.expand p)) : LoweredInst p l i := by
  obtain ⟨st, hst, hi⟩ := List.mem_flatMap.mp hi
  have hlow := lowered_of_mem hst
  cases st with
  | inst j =>
      obtain rfl := List.mem_singleton.mp hi
      exact hlow
  | scfFor id lb ub step body => exact (hlow.2 i hi).1

/-! ## The walk -/

/-- The whole buffers it loads, as operations. -/
def Lowering.loads (p : Nat) (l : Lowering) : List Inst :=
  l.ins.mapIdx fun k i => loadInst p k i.1 i.2

/-- What a load adds to the match list. -/
def matchOf (last : LastStore) (op : Inst × Option OpId) : Option Match :=
  match op.1.op with
  | .dmaLoad src _ => (last (getCastSource src)).bind fun store =>
      if store.2 = op.2 then some ⟨store.1, op.1⟩ else none
  | _ => none

theorem collect_of_no_store {last : LastStore} {ms : List Match} {op : Inst × Option OpId}
    (h : op.1.op.isDmaStore = false) :
    collect (last, ms) op = (last, ms ++ (matchOf last op).toList) := by
  obtain ⟨⟨id, o⟩, block⟩ := op
  cases o with
  | dmaStore => cases h
  | dmaLoad src dst =>
      simp only [collect, matchOf]
      cases last (getCastSource src) with
      | none => simp
      | some store =>
          by_cases hb : store.2 = block
          · simp [hb]
          · simp [hb]
  | _ => simp [collect, matchOf]

theorem foldl_collect {last : LastStore} {ms : List Match} {ops : List (Inst × Option OpId)}
    (h : ∀ op ∈ ops, op.1.op.isDmaStore = false) :
    ops.foldl collect (last, ms) = (last, ms ++ ops.filterMap (matchOf last)) := by
  induction ops generalizing ms with
  | nil => simp
  | cons op ops ih =>
      rw [List.foldl_cons, collect_of_no_store (h op List.mem_cons_self),
        ih fun op' hop => h op' (List.mem_cons_of_mem _ hop), List.append_assoc]
      cases hm : matchOf last op with
      | none => rw [List.filterMap_cons_none hm]; rfl
      | some m => rw [List.filterMap_cons_some hm]; rfl

/-- What the walk has recorded when a function body begins or goes on: stores of
the body's own block, none of them to a subview. -/
structure LastStore.Straight (last : LastStore) : Prop where
  block : ∀ key store, last key = some store → store.2 = none
  view : ∀ id s offsets sizes strides, last (.subView id s offsets sizes strides) = none

/-- An expansion, walked: up to the store, the store, the frees. -/
theorem walk_expand (p : Nat) (l : Lowering) :
    ∃ before after, (l.expand p).flatMap Stmt.walk
        = before ++ (storeInst p l, none) :: after
      ∧ (∀ op ∈ before, op.1.op.isDmaStore = false)
      ∧ (∀ op ∈ after, ∃ v, op.1.op = .dealloc v)
      ∧ ∀ last : LastStore, last.Straight → before.filterMap (matchOf last)
        = (l.loads p).filterMap fun i => matchOf last (i, none) := by
  cases l with
  | ewise kind big small out =>
      refine ⟨((emitEwiseSequence p kind big small out).take 11).flatMap Stmt.walk,
        ((emitEwiseSequence p kind big small out).drop 12).flatMap Stmt.walk, rfl, ?_, ?_,
        fun _ _ => rfl⟩
      · simp [emitEwiseSequence, emitSequence, stmt, Stmt.walk, Op.isDmaStore]
      · simp [emitEwiseSequence, emitSequence, stmt, Stmt.walk]
  | act kind src dst =>
      refine ⟨((lowerAct p kind src dst).take 8).flatMap Stmt.walk,
        ((lowerAct p kind src dst).drop 9).flatMap Stmt.walk, rfl, ?_, ?_, fun _ _ => rfl⟩
      · simp [lowerAct, emitSequence, stmt, Stmt.walk, Op.isDmaStore]
      · simp [lowerAct, emitSequence, stmt, Stmt.walk]
  | reduce kind src dst reshape =>
      cases reshape with
      | false =>
          refine ⟨((lowerReduce p kind src dst).take 8).flatMap Stmt.walk,
            ((lowerReduce p kind src dst).drop 9).flatMap Stmt.walk, rfl, ?_, ?_,
            fun _ _ => rfl⟩
          · simp [lowerReduce, emitSequence, stmt, Stmt.walk, Op.isDmaStore]
          · simp [lowerReduce, emitSequence, stmt, Stmt.walk]
      | true =>
          refine ⟨(((Lowering.reduce kind src dst true).expand p).take 9).flatMap Stmt.walk,
            (((Lowering.reduce kind src dst true).expand p).drop 10).flatMap Stmt.walk, rfl,
            ?_, ?_, fun _ _ => rfl⟩
          · simp [Lowering.expand, lowerReduce, emitSequence, stmt, Stmt.walk, Op.isDmaStore]
          · simp [Lowering.expand, lowerReduce, emitSequence, stmt, Stmt.walk]
  | matmul lhs rhs dst =>
      -- the loads of a matmul read subviews, and no store goes to one
      have hblock : ∀ {off acc sub load fence mac} {i : Inst},
          i ∈ matmulBlock p lhs rhs dst off acc sub load fence mac →
          i.op.isDmaStore = false
            ∧ ∀ last : LastStore, last.Straight → ∀ b, matchOf last (i, b) = none := by
        intro off acc sub load fence mac i hi
        simp only [matmulBlock, List.mem_cons, List.not_mem_nil, or_false] at hi
        have hview : ∀ {id offsets sizes strides s tile} {last : LastStore}, last.Straight →
            ∀ b pos, matchOf last (⟨pos, .dmaLoad (.subView id s offsets sizes strides) tile⟩,
              b) = none := by
          intro id offsets sizes strides s tile last hlast b pos
          simp [matchOf, getCastSource, hlast.view]
        rcases hi with rfl | rfl | rfl | rfl | rfl | rfl | rfl
        · exact ⟨rfl, fun _ _ _ => rfl⟩
        · exact ⟨rfl, fun _ _ _ => rfl⟩
        · exact ⟨rfl, fun _ hlast b => hview hlast b _⟩
        · exact ⟨rfl, fun _ hlast b => hview hlast b _⟩
        · exact ⟨rfl, fun _ _ _ => rfl⟩
        · exact ⟨rfl, fun _ _ _ => rfl⟩
        · exact ⟨rfl, fun _ _ _ => rfl⟩
      obtain ⟨pre, post, hexpand, hpre, hpost⟩ : ∃ pre post,
          lowerMatmul p lhs rhs dst = pre ++ .inst (storeInst p (.matmul lhs rhs dst)) :: post
            ∧ (∀ op ∈ pre.flatMap Stmt.walk, op.1.op.isDmaStore = false
              ∧ ∀ last : LastStore, last.Straight → matchOf last op = none)
            ∧ ∀ op ∈ post.flatMap Stmt.walk, ∃ v, op.1.op = .dealloc v := by
        refine ⟨_, _, rfl, ?_, by simp [stmt, Stmt.walk]⟩
        rintro ⟨i, b⟩ hop
        rw [List.flatMap_append, List.flatMap_append, List.mem_append, List.mem_append] at hop
        rcases hop with (hop | hop) | hop
        · simp only [List.flatMap_cons, List.flatMap_nil, List.append_nil, stmt, Stmt.walk,
            List.cons_append, List.nil_append, List.mem_cons, List.not_mem_nil, or_false,
            Prod.mk.injEq] at hop
          rcases hop with ⟨rfl, -⟩ | ⟨rfl, -⟩ | ⟨rfl, -⟩ | ⟨rfl, -⟩ | ⟨rfl, -⟩ | ⟨rfl, -⟩
          · exact ⟨rfl, fun _ _ => rfl⟩
          · exact ⟨rfl, fun _ _ => rfl⟩
          · exact ⟨rfl, fun _ _ => rfl⟩
          · exact ⟨rfl, fun _ _ => rfl⟩
          · exact ⟨rfl, fun _ _ => rfl⟩
          · exact ⟨rfl, fun _ _ => rfl⟩
        · obtain ⟨st, hst, hop⟩ := List.mem_flatMap.mp hop
          obtain ⟨j, hj, rfl⟩ := List.mem_map.mp hst
          cases List.mem_singleton.mp hop
          exact ⟨(hblock hj).1, fun last hlast => (hblock hj).2 last hlast _⟩
        · obtain ⟨st, hst, hop⟩ := List.mem_flatMap.mp hop
          split_ifs at hst
          · obtain rfl := List.mem_singleton.mp hst
            obtain ⟨j, hj, heq⟩ := List.mem_map.mp hop
            cases heq
            exact ⟨(hblock hj).1, fun last hlast => (hblock hj).2 last hlast _⟩
          · cases hst
      refine ⟨pre.flatMap Stmt.walk, post.flatMap Stmt.walk, ?_, fun op hop => (hpre op hop).1,
        hpost, fun last hlast => ?_⟩
      · show (lowerMatmul p lhs rhs dst).flatMap Stmt.walk = _
        rw [hexpand, List.flatMap_append, List.flatMap_cons]
        rfl
      · exact List.filterMap_eq_nil_iff.mpr fun op hop => (hpre op hop).2 last hlast

/-! ## The match list of a converted body -/

/-- The item stores to `key`. -/
def Item.storesTo (key : Value) (p : Nat) : Item Lowering → Bool
  | .op l => decide (l.target p = key)
  | _ => false

/-- The last of the first items that stores to `key`. -/
def lastStoreTo (items : List (Item Lowering)) (key : Value) : Nat → Option Nat
  | 0 => none
  | p + 1 => if (items[p]?).any (Item.storesTo key p) then some p else lastStoreTo items key p

/-- Item `q` loads the whole buffer `x` into its tile `k`, and the last store to
`x` before is that of item `j`. -/
structure Forwards (items : List (Item Lowering)) (q k : Nat) (x : Value) (t : MemRefType)
    (j : Nat) (l : Lowering) : Prop where
  load : ∃ l', items[q]? = some (.op l') ∧ l'.ins[k]? = some (x, t)
  last : lastStoreTo items x q = some j
  store : items[j]? = some (.op l)

section LastStore

variable {items : List (Item Lowering)} {key : Value}

theorem lastStoreTo_some {p j : Nat} (h : lastStoreTo items key p = some j) :
    j < p ∧ (∃ l, items[j]? = some (.op l) ∧ l.target j = key)
      ∧ ∀ i, j < i → i < p → ∀ l, items[i]? = some (.op l) → l.target i ≠ key := by
  induction p with
  | zero => cases h
  | succ p ih =>
      rw [lastStoreTo] at h
      split_ifs at h with hany
      · cases h
        obtain ⟨item, hitem, hstores⟩ := Option.any_eq_true _ _ |>.mp hany
        refine ⟨Nat.lt_succ_self _, ?_, fun i hlt hle => absurd hle (by omega)⟩
        cases item with
        | op l => exact ⟨l, hitem, of_decide_eq_true hstores⟩
        | define | ret => cases hstores
      · obtain ⟨hlt, hstore, hafter⟩ := ih h
        refine ⟨Nat.lt_succ_of_lt hlt, hstore, fun i hji hi l hl => ?_⟩
        rcases Nat.lt_succ_iff_lt_or_eq.mp hi with hi | rfl
        · exact hafter i hji hi l hl
        · intro htarget
          exact hany (by simp [hl, Item.storesTo, htarget])

theorem lastStoreTo_isSome {p j : Nat} {l : Lowering} (hj : j < p)
    (hl : items[j]? = some (.op l)) (htarget : l.target j = key) :
    ∃ i, lastStoreTo items key p = some i ∧ j ≤ i := by
  induction p with
  | zero => cases hj
  | succ p ih =>
      rw [lastStoreTo]
      by_cases hany : (items[p]?).any (Item.storesTo key p) = true
      · exact ⟨p, if_pos hany, Nat.lt_succ_iff.mp hj⟩
      · rw [if_neg hany]
        rcases Nat.lt_succ_iff_lt_or_eq.mp hj with hj | rfl
        · exact ih hj
        · exact absurd (by simp [hl, Item.storesTo, htarget]) hany

end LastStore

/-! ### Buffers -/

theorem isBuffer_cases {v : Value} (h : v.isBuffer = true) :
    v.root = v ∧ v.isTile = false ∧ v.isWhole = true := by
  cases v with
  | blockArg | getGlobal => exact ⟨rfl, rfl, rfl⟩
  | alloc id type alignment =>
      refine ⟨rfl, ?_, rfl⟩
      simpa [Value.isBuffer] using h
  | memorySpaceCast | subView | expandShape => cases h

theorem getCastSource_buffer {v : Value} (h : v.isBuffer = true) : getCastSource v = v := by
  cases v with
  | memorySpaceCast => cases h
  | _ => rfl

section Buffers

variable {items : List (Item Lowering)} {p : Nat} {l : Lowering}

theorem BufferBody.op (h : BufferBody items) (hl : items[p]? = some (.op l)) :
    l.verify = true ∧ ∀ v ∈ l.operands, v.isBuffer = true :=
  h _ (List.mem_of_getElem? hl)

theorem sources_sub_operands {x : Value} (hx : x ∈ l.sources) : x ∈ l.operands := by
  cases l with
  | matmul | ewise =>
      simp only [Lowering.sources, List.mem_cons, List.not_mem_nil, or_false] at hx
      rcases hx with rfl | rfl <;> simp [Lowering.operands]
  | act | reduce =>
      obtain rfl := List.mem_singleton.mp hx
      simp [Lowering.operands]

theorem BufferBody.source (h : BufferBody items) (hl : items[p]? = some (.op l)) {x : Value}
    (hx : x ∈ l.sources) : x.isBuffer = true :=
  (h.op hl).2 x (sources_sub_operands hx)

theorem ins_source {k : Nat} {x : Value} {t : MemRefType} (hx : l.ins[k]? = some (x, t)) :
    x ∈ l.sources := by
  have hmem := List.mem_of_getElem? hx
  rw [← ins_fst (List.ne_nil_of_mem hmem)]
  exact List.mem_map_of_mem hmem

theorem blocks_source {x : Value} (hx : x ∈ l.blocks) : x ∈ l.sources := by
  cases l with
  | matmul => exact hx
  | ewise | act | reduce => cases hx

/-- It stores to a buffer, or to one that it reshapes. -/
theorem BufferBody.target (h : BufferBody items) (hl : items[p]? = some (.op l)) :
    (l.target p).isBuffer = true
      ∨ ∃ kind src dst, l = .reduce kind src dst true ∧ dst.isBuffer = true := by
  have hop := (h.op hl).2
  cases l with
  | matmul | ewise | act => exact .inl (hop _ (by simp [Lowering.operands, Lowering.target]))
  | reduce kind src dst reshape =>
      have hdst := hop dst (by simp [Lowering.operands])
      cases reshape with
      | false => exact .inl hdst
      | true => exact .inr ⟨kind, src, dst, rfl, hdst⟩

/-- The key of its store. -/
theorem BufferBody.key (h : BufferBody items) (hl : items[p]? = some (.op l)) (id : OpId) :
    getCastSource (toDDR id (l.target p)) = l.target p := by
  rcases h.target hl with hbuffer | ⟨kind, src, dst, rfl, -⟩
  · exact getCastSource_buffer hbuffer
  · rfl

end Buffers

/-! ### The walk of a body -/

/-- The store of item `j`, as the walk records it. -/
def storeAt (items : List (Item Lowering)) (j : Nat) : Option (Inst × Option OpId) :=
  match items[j]? with
  | some (.op l) => some (storeInst j l, none)
  | _ => none

/-- What the walk has collected before item `p`. -/
structure Collected (items : List (Item Lowering)) (p : Nat) (s : LastStore × List Match) :
    Prop where
  last : ∀ key, s.1 key = (lastStoreTo items key p).bind (storeAt items)
  mem : ∀ m, m ∈ s.2 ↔ ∃ q k x t j l, q < p ∧ Forwards items q k x t j l
    ∧ m = ⟨storeInst j l, loadInst q k x t⟩
  distinct : s.2.Pairwise fun m m' => m.loadOp.id ≠ m'.loadOp.id

section Collect

variable {items : List (Item Lowering)} {p : Nat} {s : LastStore × List Match}

theorem Collected.straight (h : BufferBody items) (hs : Collected items p s) :
    s.1.Straight := by
  constructor
  · intro key store hkey
    rw [hs.last, Option.bind_eq_some_iff] at hkey
    obtain ⟨j, -, hstore⟩ := hkey
    unfold storeAt at hstore
    split at hstore
    · cases hstore
      rfl
    · cases hstore
  · intro id v offsets sizes strides
    rw [hs.last]
    cases hj : lastStoreTo items (.subView id v offsets sizes strides) p with
    | none => rfl
    | some j =>
        obtain ⟨-, ⟨l, hl, htarget⟩, -⟩ := lastStoreTo_some hj
        rcases h.target hl with hbuffer | ⟨kind, src, dst, rfl, -⟩
        · rw [htarget] at hbuffer
          cases hbuffer
        · cases htarget

theorem storeAt_op {j : Nat} {l : Lowering} (hl : items[j]? = some (.op l)) :
    storeAt items j = some (storeInst j l, none) := by
  rw [storeAt, hl]

/-- An item that stores nothing. -/
theorem lastStoreTo_skip {key : Value} {item : Item Lowering} (hitem : items[p]? = some item)
    (h : item.storesTo key p = false) :
    lastStoreTo items key (p + 1) = lastStoreTo items key p := by
  rw [lastStoreTo, if_neg]
  simp [hitem, h]

theorem Collected.skip {item : Item Lowering} (hs : Collected items p s)
    (hitem : items[p]? = some item) (hop : ∀ l, item ≠ .op l) : Collected items (p + 1) s := by
  refine ⟨fun key => ?_, fun m => ?_, hs.distinct⟩
  · rw [hs.last, lastStoreTo_skip hitem]
    cases item with
    | op l => exact absurd rfl (hop l)
    | define | ret => rfl
  · rw [hs.mem]
    constructor
    · rintro ⟨q, k, x, t, j, l, hq, hf, rfl⟩
      exact ⟨q, k, x, t, j, l, Nat.lt_succ_of_lt hq, hf, rfl⟩
    · rintro ⟨q, k, x, t, j, l, hq, hf, rfl⟩
      rcases Nat.lt_succ_iff_lt_or_eq.mp hq with hq | rfl
      · exact ⟨q, k, x, t, j, l, hq, hf, rfl⟩
      · obtain ⟨l', hl', -⟩ := hf.load
        rw [hitem] at hl'
        cases hl'
        exact absurd rfl (hop l')

/-- The loads of an item that find a store. -/
theorem mem_matches (h : BufferBody items) (hs : Collected items p s) {l : Lowering}
    (hl : items[p]? = some (.op l)) {m : Match} :
    m ∈ (l.loads p).filterMap (fun i => matchOf s.1 (i, none))
      ↔ ∃ k x t j l', Forwards items p k x t j l'
        ∧ m = ⟨storeInst j l', loadInst p k x t⟩ := by
  rw [List.mem_filterMap]
  constructor
  · rintro ⟨i, hi, hm⟩
    obtain ⟨k, hk, rfl⟩ := List.mem_mapIdx.mp hi
    have hx : l.ins[k]? = some (l.ins[k].1, l.ins[k].2) := List.getElem?_eq_getElem hk
    have hbuffer := h.source hl (ins_source hx)
    simp only [loadInst, matchOf, toDDR, getCastSource, getCastSource_buffer hbuffer, hs.last,
      Option.bind_eq_some_iff] at hm
    obtain ⟨store, ⟨j, hj, hstore⟩, hm⟩ := hm
    obtain ⟨-, ⟨l', hl', -⟩, -⟩ := lastStoreTo_some hj
    rw [storeAt_op hl'] at hstore
    cases hstore
    rw [if_pos rfl] at hm
    cases hm
    exact ⟨k, _, _, j, l', ⟨⟨l, hl, hx⟩, hj, hl'⟩, rfl⟩
  · rintro ⟨k, x, t, j, l', ⟨⟨l'', hl'', hx⟩, hj, hl'⟩, rfl⟩
    rw [hl] at hl''
    cases hl''
    have hbuffer := h.source hl (ins_source hx)
    obtain ⟨hk, hget⟩ := List.getElem?_eq_some_iff.mp hx
    refine ⟨loadInst p k x t, List.mem_mapIdx.mpr ⟨k, hk, by rw [hget]⟩, ?_⟩
    simp [loadInst, matchOf, toDDR, getCastSource, getCastSource_buffer hbuffer, hs.last, hj,
      storeAt_op hl']

/-- Different loads have different ids. -/
theorem loads_distinct (p : Nat) (l : Lowering) :
    (l.loads p).Pairwise fun i i' => i.id ≠ i'.id := by
  cases l with
  | ewise kind big small out => simp [Lowering.loads, Lowering.ins, loadInst]
  | matmul | act | reduce => simp [Lowering.loads, Lowering.ins]

theorem matchOf_load {last : LastStore} {i : Inst} {b : Option OpId} {m : Match}
    (h : matchOf last (i, b) = some m) : m.loadOp = i := by
  unfold matchOf at h
  split at h
  · obtain ⟨store, -, h⟩ := Option.bind_eq_some_iff.mp h
    split_ifs at h
    cases h
    rfl
  · cases h

theorem Collected.op (h : BufferBody items) (hs : Collected items p s) {l : Lowering}
    (hl : items[p]? = some (.op l)) :
    Collected items (p + 1) (((l.expand p).flatMap Stmt.walk).foldl collect s) := by
  obtain ⟨before, after, hwalk, hbefore, hafter, hmatch⟩ := walk_expand p l
  have hstep : ((l.expand p).flatMap Stmt.walk).foldl collect s
      = (fun key => if key = l.target p then some (storeInst p l, none) else s.1 key,
        s.2 ++ (l.loads p).filterMap fun i => matchOf s.1 (i, none)) := by
    show List.foldl collect (s.1, s.2) _ = _
    rw [hwalk, List.foldl_append, foldl_collect hbefore, hmatch _ (hs.straight h),
      List.foldl_cons]
    have hstore : ∀ ms, collect (s.1, ms) (storeInst p l, none)
        = (fun key => if key = l.target p then some (storeInst p l, none) else s.1 key, ms) := by
      intro ms
      show (fun key => if key = getCastSource (toDDR ⟨p, .castOut⟩ (l.target p)) then _ else _,
        ms) = _
      rw [h.key hl]
    have hnone : ∀ last : LastStore, after.filterMap (matchOf last) = [] := by
      intro last
      refine List.filterMap_eq_nil_iff.mpr fun op hop => ?_
      obtain ⟨v, hv⟩ := hafter op hop
      simp [matchOf, hv]
    rw [hstore, foldl_collect]
    · rw [hnone, List.append_nil]
    · intro op hop
      obtain ⟨v, hv⟩ := hafter op hop
      rw [hv]
      rfl
  rw [hstep]
  refine ⟨fun key => ?_, fun m => ?_, ?_⟩
  · dsimp only
    by_cases hkey : key = l.target p
    · rw [if_pos hkey, lastStoreTo, if_pos (by simp [hl, Item.storesTo, hkey]),
        Option.bind_some, storeAt_op hl]
    · rw [if_neg hkey, hs.last, lastStoreTo_skip hl]
      exact decide_eq_false fun heq => hkey heq.symm
  · rw [List.mem_append, hs.mem, mem_matches h hs hl]
    constructor
    · rintro (⟨q, k, x, t, j, l', hq, hf, rfl⟩ | ⟨k, x, t, j, l', hf, rfl⟩)
      · exact ⟨q, k, x, t, j, l', Nat.lt_succ_of_lt hq, hf, rfl⟩
      · exact ⟨p, k, x, t, j, l', Nat.lt_succ_self p, hf, rfl⟩
    · rintro ⟨q, k, x, t, j, l', hq, hf, rfl⟩
      rcases Nat.lt_succ_iff_lt_or_eq.mp hq with hq | rfl
      · exact .inl ⟨q, k, x, t, j, l', hq, hf, rfl⟩
      · exact .inr ⟨k, x, t, j, l', hf, rfl⟩
  · refine List.pairwise_append.mpr ⟨hs.distinct, ?_, ?_⟩
    · refine List.pairwise_filterMap.mpr ((loads_distinct p l).imp ?_)
      intro i i' hne m hm m' hm'
      rw [matchOf_load hm, matchOf_load hm']
      exact hne
    · intro m hm m' hm'
      obtain ⟨q, k, x, t, j, l', hq, -, rfl⟩ := (hs.mem m).mp hm
      obtain ⟨k', x', t', j', l'', -, rfl⟩ := (mem_matches h hs hl).mp hm'
      intro heq
      cases heq
      exact absurd hq (Nat.lt_irrefl _)

/-- **The match list**: the loads of whole buffers that some earlier item stored
to, each with the last such store. -/
theorem collected (h : BufferBody items) :
    ∃ last, Collected items items.length (last, matchList (expandFrom 0 items)) := by
  have hrun : ∀ (rest : List (Item Lowering)) (p : Nat) (s : LastStore × List Match),
      items.drop p = rest → Collected items p s →
      Collected items (p + rest.length)
        (((expandFrom p rest).flatMap Stmt.walk).foldl collect s) := by
    intro rest
    induction rest with
    | nil => exact fun p s _ hs => hs
    | cons item rest ih =>
        intro p s hrest hs
        have hitem : items[p]? = some item := by
          rw [← List.head?_drop, hrest, List.head?_cons]
        have htail : items.drop (p + 1) = rest := by
          rw [← List.tail_drop, hrest, List.tail_cons]
        rw [expandFrom, List.flatMap_append, List.foldl_append, List.length_cons,
          Nat.add_comm rest.length, ← Nat.add_assoc]
        refine ih (p + 1) _ htail ?_
        cases item with
        | op l => exact hs.op h hitem
        | define v => exact hs.skip hitem (by simp)
        | ret vs => exact hs.skip hitem (by simp)
  have hstart : Collected items 0 (fun _ => none, []) :=
    ⟨fun _ => rfl, fun m => by simp, .nil⟩
  have hall := hrun items 0 _ rfl hstart
  rw [Nat.zero_add] at hall
  exact ⟨_, hall⟩

end Collect

/-! ## Replacing tiles -/

/-- A use of a value after all replacements. -/
def replaceUses (pairs : List (Value × Value)) (v : Value) : Value :=
  pairs.foldl (fun v e => Value.replace e.1 e.2 v) v

/-- The result of an operation after all replacements. -/
def replaceDefined (pairs : List (Value × Value)) (v : Value) : Value :=
  pairs.foldl (fun v e => Value.replaceOperands e.1 e.2 v) v

theorem replaceAll_eq (pairs : List (Value × Value)) (op : Op) :
    replaceAll pairs op = op.mapOperands (replaceUses pairs) (replaceDefined pairs) := by
  induction pairs generalizing op with
  | nil =>
      show op = op.mapOperands id id
      cases op with
      | reduce kind src dst idx => cases idx <;> rfl
      | ret vs => simp [Op.mapOperands]
      | _ => rfl
  | cons e pairs ih =>
      show replaceAll pairs (op.replace e.1 e.2) = _
      rw [ih]
      cases op with
      | reduce kind src dst idx => cases idx <;> rfl
      | ret vs => simp [Op.replace, Op.mapOperands, replaceUses]
      | _ => rfl

theorem Value.replace_of_root {v old : Value} (hold : old.isAlloc = true) (h : v.root ≠ old)
    (new : Value) : Value.replace old new v = v := by
  induction v with
  | blockArg | getGlobal =>
      rw [Value.replace, if_neg]
      rintro rfl
      cases hold
  | alloc => exact if_neg h
  | memorySpaceCast id s m ih | subView id s o z t ih | expandShape id s sh ih =>
      rw [Value.replace, if_neg, ih h]
      rintro rfl
      cases hold

theorem Value.replaceOperands_of_root {v old : Value} (hold : old.isAlloc = true)
    (h : v.root ≠ old) (new : Value) : Value.replaceOperands old new v = v := by
  cases v with
  | blockArg | getGlobal | alloc => rfl
  | memorySpaceCast id s m | subView id s o z t | expandShape id s sh =>
      rw [Value.replaceOperands, Value.replace_of_root hold (show s.root ≠ old from h)]

section Replace

variable {pairs : List (Value × Value)} {v : Value}

theorem replaceUses_of_root (h : ∀ e ∈ pairs, e.1.isAlloc = true ∧ v.root ≠ e.1) :
    replaceUses pairs v = v := by
  induction pairs with
  | nil => rfl
  | cons e pairs ih =>
      obtain ⟨halloc, hne⟩ := h e List.mem_cons_self
      show replaceUses pairs (Value.replace e.1 e.2 v) = v
      rw [Value.replace_of_root halloc hne, ih fun e' he => h e' (List.mem_cons_of_mem _ he)]

theorem replaceDefined_of_root (h : ∀ e ∈ pairs, e.1.isAlloc = true ∧ v.root ≠ e.1) :
    replaceDefined pairs v = v := by
  induction pairs with
  | nil => rfl
  | cons e pairs ih =>
      obtain ⟨halloc, hne⟩ := h e List.mem_cons_self
      show replaceDefined pairs (Value.replaceOperands e.1 e.2 v) = v
      rw [Value.replaceOperands_of_root halloc hne,
        ih fun e' he => h e' (List.mem_cons_of_mem _ he)]

theorem replaceDefined_alloc (h : v.isAlloc = true) : replaceDefined pairs v = v := by
  induction pairs with
  | nil => rfl
  | cons e pairs ih =>
      cases v with
      | alloc => exact ih
      | _ => cases h

/-- A replaced alloc, when what replaces it is not replaced again. -/
theorem replaceUses_key {w : Value} (hmem : (v, w) ∈ pairs)
    (hkeys : ∀ e ∈ pairs, e.1.isAlloc = true ∧ w.root ≠ e.1)
    (huniq : ∀ e ∈ pairs, e.1 = v → e.2 = w) : replaceUses pairs v = w := by
  induction pairs with
  | nil => cases hmem
  | cons e pairs ih =>
      have htail : ∀ e' ∈ pairs, e'.1.isAlloc = true ∧ w.root ≠ e'.1 := fun e' he =>
        hkeys e' (List.mem_cons_of_mem _ he)
      show replaceUses pairs (Value.replace e.1 e.2 v) = w
      by_cases hv : e.1 = v
      · have hrep : Value.replace e.1 e.2 v = w := by
          rw [huniq e List.mem_cons_self hv, hv]
          have halloc := (hkeys e List.mem_cons_self).1
          rw [hv] at halloc
          cases v with
          | alloc => exact if_pos rfl
          | _ => cases halloc
        rw [hrep]
        exact replaceUses_of_root htail
      · have halloc := (hkeys e List.mem_cons_self).1
        have hvalloc := (hkeys _ hmem).1
        rw [Value.replace_of_root halloc (by rw [root_of_isAlloc hvalloc]; exact fun h => hv h.symm)]
        refine ih ?_ htail fun e' he => huniq e' (List.mem_cons_of_mem _ he)
        rcases List.mem_cons.mp hmem with rfl | hmem
        · exact absurd rfl hv
        · exact hmem

end Replace

/-! ## Forwarding on a converted body -/

/-- The replacements that forwarding makes: every tile whose load goes, with the
tile that was stored. -/
def ForwardPairs (items : List (Item Lowering)) (pairs : List (Value × Value)) : Prop :=
  ∀ e, e ∈ pairs ↔ ∃ q k x t j l, Forwards items q k x t j l
    ∧ e = (tileIn q k t, l.outTile j)

theorem outTile_eq (j : Nat) (l : Lowering) : ∃ t, l.outTile j = tileOut j t := by
  cases l with
  | matmul | ewise | act | reduce => exact ⟨_, rfl⟩

/-- An item loads from one store only. -/
theorem Forwards.unique {items : List (Item Lowering)} {q k j j' : Nat} {x x' : Value}
    {t t' : MemRefType} {l l' : Lowering} (h : Forwards items q k x t j l)
    (h' : Forwards items q k x' t' j' l') : x = x' ∧ t = t' ∧ j = j' ∧ l = l' := by
  obtain ⟨⟨m, hm, hx⟩, hj, hl⟩ := h
  obtain ⟨⟨m', hm', hx'⟩, hj', hl'⟩ := h'
  rw [hm] at hm'
  cases hm'
  rw [hx] at hx'
  cases hx'
  rw [hj] at hj'
  cases hj'
  rw [hl] at hl'
  cases hl'
  exact ⟨rfl, rfl, rfl, rfl⟩

section Pairs

variable {items : List (Item Lowering)} {pairs : List (Value × Value)}
  (hp : ForwardPairs items pairs)
include hp

theorem ForwardPairs.key {e : Value × Value} (he : e ∈ pairs) :
    ∃ q k t, e.1 = tileIn q k t := by
  obtain ⟨q, k, x, t, j, l, -, rfl⟩ := (hp e).mp he
  exact ⟨q, k, t, rfl⟩

/-- What is below none of the forwarded tiles. -/
theorem ForwardPairs.untouched {v : Value} (hv : ∀ q k t, v.root = tileIn q k t →
      ∀ x j l, ¬ Forwards items q k x t j l) :
    ∀ e ∈ pairs, e.1.isAlloc = true ∧ v.root ≠ e.1 := by
  intro e he
  obtain ⟨q, k, x, t, j, l, hf, rfl⟩ := (hp e).mp he
  exact ⟨rfl, fun h => hv q k t h x j l hf⟩

theorem ForwardPairs.notTile {v : Value} (hv : v.root.isTile = false) :
    ∀ e ∈ pairs, e.1.isAlloc = true ∧ v.root ≠ e.1 := by
  refine hp.untouched fun q k t h => ?_
  rw [h] at hv
  cases hv

theorem ForwardPairs.buffer {v : Value} (hv : v.root.isTile = false) :
    replaceUses pairs v = v := replaceUses_of_root (hp.notTile hv)

theorem ForwardPairs.defined {v : Value} (hv : v.root.isTile = false) :
    replaceDefined pairs v = v := replaceDefined_of_root (hp.notTile hv)

theorem ForwardPairs.outTile (j : Nat) (l : Lowering) :
    replaceUses pairs (l.outTile j) = l.outTile j := by
  obtain ⟨t, ht⟩ := outTile_eq j l
  rw [ht]
  exact replaceUses_of_root (hp.untouched fun q k t' h => by cases h)

theorem ForwardPairs.forward {q k j : Nat} {x : Value} {t : MemRefType} {l : Lowering}
    (hf : Forwards items q k x t j l) : replaceUses pairs (tileIn q k t) = l.outTile j := by
  refine replaceUses_key ((hp _).mpr ⟨q, k, x, t, j, l, hf, rfl⟩) ?_ ?_
  · intro e he
    obtain ⟨q', k', t', hkey⟩ := hp.key he
    obtain ⟨t'', ht''⟩ := outTile_eq j l
    rw [hkey, ht'']
    exact ⟨rfl, by simp [tileIn, tileOut, Value.root]⟩
  · intro e he heq
    obtain ⟨q', k', x', t', j', l', hf', rfl⟩ := (hp e).mp he
    cases heq
    obtain ⟨-, -, rfl, rfl⟩ := hf.unique hf'
    rfl

/-- A tile that is loaded. -/
theorem ForwardPairs.loaded {q k : Nat} {t : MemRefType}
    (h : ∀ x j l, ¬ Forwards items q k x t j l) :
    replaceUses pairs (tileIn q k t) = tileIn q k t := by
  refine replaceUses_of_root (hp.untouched fun q' k' t' heq => ?_)
  cases heq
  exact h

/-- The tiles of a matmul. -/
theorem ForwardPairs.block {q : Nat} {l : Lowering} (hl : items[q]? = some (.op l))
    (hins : l.ins = []) {t : Value} (ht : t ∈ l.tiles q) : replaceUses pairs t = t := by
  have hnone : ∀ k x t j l', ¬ Forwards items q k x t j l' := by
    rintro k x t j l' ⟨⟨l'', hl'', hx⟩, -, -⟩
    rw [hl] at hl''
    cases hl''
    rw [hins] at hx
    cases hx
  cases l with
  | matmul lhs rhs dst =>
      simp only [Lowering.tiles, Lowering.outTile, List.mem_cons, List.not_mem_nil,
        or_false] at ht
      rcases ht with rfl | rfl | rfl
      · exact hp.outTile q (.matmul lhs rhs dst)
      · exact hp.loaded fun x j l => hnone 0 x _ j l
      · exact hp.loaded fun x j l => hnone 1 x _ j l
  | ewise | act | reduce => cases hins

/-- A tile is replaced by a tile. -/
theorem ForwardPairs.isTile {v : Value} (hv : v.isTile = true) :
    (replaceUses pairs v).isTile = true := by
  by_cases hex : ∃ q k t x j l, v = tileIn q k t ∧ Forwards items q k x t j l
  · obtain ⟨q, k, t, x, j, l, rfl, hf⟩ := hex
    obtain ⟨t', ht'⟩ := outTile_eq j l
    rw [hp.forward hf, ht']
    rfl
  · rw [replaceUses_of_root (hp.untouched fun q k t h x j l hf => ?_)]
    · exact hv
    · cases v with
      | alloc => exact hex ⟨q, k, t, x, j, l, h, hf⟩
      | _ => cases hv

end Pairs

/-- The tile of the load, the tile of the store. -/
def Match.pair (m : Match) : Value × Value :=
  match m.loadOp.op, m.storeOp.op with
  | .dmaLoad _ dst, .dmaStore src _ => (dst, src)
  | _, _ => (.getGlobal m.loadOp.id (f16Type 0 0), .getGlobal m.storeOp.id (f16Type 0 0))

section Forward

variable {items : List (Item Lowering)}

theorem BufferBody.source_root (h : BufferBody items) {p : Nat} {l : Lowering}
    (hl : items[p]? = some (.op l)) {x : Value} (hx : x ∈ l.sources) :
    x.root.isTile = false := by
  obtain ⟨hroot, htile, -⟩ := isBuffer_cases (h.source hl hx)
  rw [hroot, htile]

theorem BufferBody.target_root (h : BufferBody items) {p : Nat} {l : Lowering}
    (hl : items[p]? = some (.op l)) : (l.target p).root.isTile = false := by
  rcases h.target hl with hbuffer | ⟨kind, src, dst, rfl, hbuffer⟩
  · obtain ⟨hroot, htile, -⟩ := isBuffer_cases hbuffer
    rw [hroot, htile]
  · obtain ⟨hroot, htile, -⟩ := isBuffer_cases hbuffer
    show dst.root.isTile = false
    rw [hroot, htile]

/-- The loads that go. -/
def forwardedIds (items : List (Item Lowering)) : List OpId :=
  (matchList (expandFrom 0 items)).map (·.loadOp.id)

/-- **Forwarding in closed form.** -/
theorem forwardLoads_expand (h : BufferBody items) : ∃ pairs, ForwardPairs items pairs
    ∧ forwardLoads (matchList (expandFrom 0 items)) (expandFrom 0 items)
      = (pairs, editBody (forwardEdit (forwardedIds items) pairs) (expandFrom 0 items)) := by
  obtain ⟨last, hms⟩ := collected h
  have hmem := hms.mem
  refine ⟨(matchList (expandFrom 0 items)).map Match.pair, fun e => ?_, ?_⟩
  · rw [List.mem_map]
    constructor
    · rintro ⟨m, hm, rfl⟩
      obtain ⟨q, k, x, t, j, l, -, hf, rfl⟩ := (hmem m).mp hm
      exact ⟨q, k, x, t, j, l, hf, rfl⟩
    · rintro ⟨q, k, x, t, j, l, hf, rfl⟩
      obtain ⟨l', hl', -⟩ := hf.load
      have hq : q < items.length := (List.getElem?_eq_some_iff.mp hl').1
      exact ⟨_, (hmem _).mpr ⟨q, k, x, t, j, l, hq, hf, rfl⟩, rfl⟩
  · refine forwardLoads_eq (fun m hm => ?_) (hms.distinct.imp_of_mem ?_) _
    · obtain ⟨q, k, x, t, j, l, -, -, rfl⟩ := (hmem m).mp hm
      exact ⟨rfl, rfl⟩
    · intro m m' hm hm' hne
      obtain ⟨q, k, x, t, j, l, -, -, rfl⟩ := (hmem m).mp hm
      obtain ⟨q', k', x', t', j', l', -, hf, rfl⟩ := (hmem m').mp hm'
      obtain ⟨l'', hl'', hx'⟩ := hf.load
      have hkeep : ∀ v : Value, v.root ≠ tileIn q k t →
          Value.replace (tileIn q k t) (l.outTile j) v = v := fun v hv =>
        Value.replace_of_root rfl hv _
      have hbuffer : ∀ v : Value, v.root.isTile = false → v.root ≠ tileIn q k t := by
        intro v hv heq
        rw [heq] at hv
        cases hv
      have hsource := h.source_root hl'' (ins_source hx')
      have htarget := h.target_root hf.store
      obtain ⟨t'', ht''⟩ := outTile_eq j' l'
      constructor
      · have htile : tileIn q' k' t' ≠ tileIn q k t := by
          intro heq
          cases heq
          exact hne rfl
        show Op.dmaLoad (Value.replace _ _ _) (Value.replace _ _ _) = _
        exact congrArg₂ Op.dmaLoad (hkeep _ (hbuffer (toDDR ⟨q', .castIn k'⟩ x') hsource))
          (hkeep _ htile)
      · have htile : (l'.outTile j').root ≠ tileIn q k t := by
          rw [ht'']
          simp [tileIn, tileOut, Value.root]
        show Op.dmaStore (Value.replace _ _ _) (Value.replace _ _ _) = _
        exact congrArg₂ Op.dmaStore (hkeep _ htile)
          (hkeep _ (hbuffer (toDDR ⟨j', .castOut⟩ (l'.target j')) htarget))

theorem mem_forwardedIds (h : BufferBody items) {id : OpId} :
    id ∈ forwardedIds items
      ↔ ∃ q k x t j l, Forwards items q k x t j l ∧ id = ⟨q, .load k⟩ := by
  obtain ⟨last, hms⟩ := collected h
  rw [forwardedIds, List.mem_map]
  constructor
  · rintro ⟨m, hm, rfl⟩
    obtain ⟨q, k, x, t, j, l, -, hf, rfl⟩ := (hms.mem m).mp hm
    exact ⟨q, k, x, t, j, l, hf, rfl⟩
  · rintro ⟨q, k, x, t, j, l, hf, rfl⟩
    obtain ⟨l', hl', -⟩ := hf.load
    have hq : q < items.length := (List.getElem?_eq_some_iff.mp hl').1
    exact ⟨_, (hms.mem _).mpr ⟨q, k, x, t, j, l, hq, hf, rfl⟩, rfl⟩

end Forward

/-! ## Who uses a buffer -/

/-- An operation of a converted body. -/
inductive ItemInst (items : List (Item Lowering)) : Inst → Prop
  | define {q : Nat} {v : Value} (h : items[q]? = some (.define v)) :
      ItemInst items ⟨⟨q, .user 0⟩, .define v⟩
  | ret {q : Nat} {vs : List Value} (h : items[q]? = some (.ret vs)) :
      ItemInst items ⟨⟨q, .user 0⟩, .ret vs⟩
  | op {q : Nat} {l : Lowering} {i : Inst} (h : items[q]? = some (.op l))
      (hi : LoweredInst q l i) : ItemInst items i

section Body

variable {items : List (Item Lowering)}

theorem itemInst_of_mem {i : Inst} (hi : i ∈ bodyInsts (expandFrom 0 items)) :
    ItemInst items i := by
  obtain ⟨q, item, hitem, hi⟩ := mem_expandFrom.mp hi
  rw [Nat.zero_add] at hi
  cases item with
  | define v =>
      obtain rfl := List.mem_singleton.mp hi
      exact .define hitem
  | ret vs =>
      obtain rfl := List.mem_singleton.mp hi
      exact .ret hitem
  | op l => exact .op hitem (lowered_bodyInsts hi)

theorem mem_body {q : Nat} {item : Item Lowering} (hitem : items[q]? = some item) {i : Inst}
    (hi : i ∈ bodyInsts (item.expand q)) : i ∈ bodyInsts (expandFrom 0 items) := by
  refine mem_expandFrom.mpr ⟨q, item, hitem, ?_⟩
  rw [Nat.zero_add]
  exact hi

theorem mem_bodyInsts_stmt {p : Nat} {pos : Pos} {op : Op} {body : List Stmt}
    (h : stmt p pos op ∈ body) : ⟨⟨p, pos⟩, op⟩ ∈ bodyInsts body :=
  List.mem_flatMap.mpr ⟨_, h, List.mem_singleton_self _⟩

/-- The store and its cast. -/
theorem mem_store (p : Nat) (l : Lowering) :
    ⟨⟨p, .castOut⟩, .define (toDDR ⟨p, .castOut⟩ (l.target p))⟩
        ∈ bodyInsts (l.expand p)
      ∧ storeInst p l ∈ bodyInsts (l.expand p) := by
  by_cases hl : l.ins = []
  · cases l with
    | matmul lhs rhs dst =>
        refine ⟨mem_bodyInsts_stmt ?_, mem_bodyInsts_stmt ?_⟩
        · exact List.mem_append_left _ (List.mem_append_left _ (List.mem_append_left _
            (by simp [stmt, Lowering.target])))
        · exact List.mem_append_right _ List.mem_cons_self
    | ewise | act | reduce => cases hl
  · obtain ⟨pre, hexpand, -⟩ := expand_eq hl p
    obtain ⟨-, hcast, -, hstore⟩ := mem_emitSequence p l.ins (l.target p) (l.compute p false)
    rw [outTile_of_ins hl] at hstore
    rw [hexpand]
    exact ⟨mem_bodyInsts_stmt (List.mem_append_right _ hcast),
      mem_bodyInsts_stmt (List.mem_append_right _ hstore)⟩

/-- A load of a whole buffer and its cast. -/
theorem mem_load {p k : Nat} {l : Lowering} {x : Value} {t : MemRefType}
    (hx : l.ins[k]? = some (x, t)) :
    ⟨⟨p, .castIn k⟩, .define (toDDR ⟨p, .castIn k⟩ x)⟩ ∈ bodyInsts (l.expand p)
      ∧ loadInst p k x t ∈ bodyInsts (l.expand p) := by
  obtain ⟨pre, hexpand, -⟩ := expand_eq (List.ne_nil_of_mem (List.mem_of_getElem? hx)) p
  obtain ⟨hmem, -⟩ := mem_emitSequence p l.ins (l.target p) (l.compute p false)
  obtain ⟨hcast, -, hload⟩ := hmem k x t hx
  rw [hexpand]
  exact ⟨mem_bodyInsts_stmt (List.mem_append_right _ hcast),
    mem_bodyInsts_stmt (List.mem_append_right _ hload)⟩

/-- A load of a block. -/
theorem mem_subLoad {p : Nat} {l : Lowering} {x : Value} (hx : x ∈ l.blocks) :
    ∃ k view tile, ⟨⟨p, .load k⟩, .dmaLoad view tile⟩ ∈ bodyInsts (l.expand p)
      ∧ view.root = x.root := by
  cases l with
  | matmul lhs rhs dst =>
      have hblock : ∀ i ∈ matmulBlock p lhs rhs dst (.const 0) false .subIn .load .fence
          .compute, i ∈ bodyInsts (lowerMatmul p lhs rhs dst) := fun i hi =>
        List.mem_flatMap.mpr ⟨.inst i, List.mem_append_left _ (List.mem_append_left _
          (List.mem_append_right _ (List.mem_map_of_mem hi))), List.mem_singleton_self i⟩
      simp only [Lowering.blocks, List.mem_cons, List.not_mem_nil, or_false] at hx
      rcases hx with rfl | rfl
      · exact ⟨0, subLhs p (.subIn 0) x (.const 0), lhsTile p x,
          hblock _ (by simp [matmulBlock]), rfl⟩
      · exact ⟨1, subRhs p (.subIn 1) x (.const 0), rhsTile p x,
          hblock _ (by simp [matmulBlock]), rfl⟩
  | ewise | act | reduce => cases hx

/-! ### Operands after forwarding -/

/-- What an operation of an expansion names, the tiles replaced. -/
inductive LoweredUse (p : Nat) (l : Lowering) : Inst → Value → Prop
  | tile {i : Inst} {v : Value} (hv : v.isTile = true) : LoweredUse p l i v
  | view {i : Inst} {id : OpId} {s : Value} {offsets : List IndexValue}
      {sizes strides : List Nat} : LoweredUse p l i (.subView id s offsets sizes strides)
  | castIn {k : Nat} {x : Value} (hx : x ∈ l.sources) :
      LoweredUse p l ⟨⟨p, .castIn k⟩, .define (toDDR ⟨p, .castIn k⟩ x)⟩ x
  | castOut : LoweredUse p l ⟨⟨p, .castOut⟩, .define (toDDR ⟨p, .castOut⟩ (l.target p))⟩
      (l.target p)
  | expand {kind : ReduceKind} {src dst : Value} (hl : l = .reduce kind src dst true) :
      LoweredUse p l ⟨⟨p, .expand⟩, .define (expandInit p dst)⟩ dst
  | sub {id id' : OpId} {k : Nat} {x : Value} {offsets : List IndexValue}
      {sizes strides : List Nat} :
      LoweredUse p l ⟨id, .define (.subView id' (toDDR ⟨p, .castIn k⟩ x) offsets sizes
        strides)⟩ (toDDR ⟨p, .castIn k⟩ x)
  | load {k : Nat} {x : Value} {t : MemRefType} (hx : l.ins[k]? = some (x, t)) :
      LoweredUse p l (loadInst p k x t) (toDDR ⟨p, .castIn k⟩ x)
  | store : LoweredUse p l (storeInst p l) (toDDR ⟨p, .castOut⟩ (l.target p))

variable {pairs : List (Value × Value)} {q : Nat} {l : Lowering}

theorem isTile_compute {p : Nat} {l : Lowering} {accumulate : Bool} {v : Value}
    (hv : v ∈ (l.compute p accumulate).operands) : v ∈ l.tiles p := by
  cases l with
  | matmul | ewise =>
      simp only [Lowering.compute, Op.operands, List.mem_cons, List.not_mem_nil, or_false] at hv
      rcases hv with rfl | rfl | rfl <;>
        simp [Lowering.tiles, Lowering.outTile, Lowering.target]
  | act | reduce =>
      simp only [Lowering.compute, Op.operands, Option.toList_none, List.append_nil,
        List.mem_cons, List.not_mem_nil, or_false] at hv
      rcases hv with rfl | rfl <;> simp [Lowering.tiles, Lowering.outTile, Lowering.target]

theorem operands_replaceAll (pairs : List (Value × Value)) {op : Op}
    (hop : ∀ v, op ≠ .define v) :
    (replaceAll pairs op).operands = op.operands.map (replaceUses pairs) := by
  rw [replaceAll_eq]
  cases op with
  | define v => exact absurd rfl (hop v)
  | reduce kind src dst idx => cases idx <;> rfl
  | _ => rfl

theorem replaceAll_define (pairs : List (Value × Value)) (v : Value) :
    replaceAll pairs (.define v) = .define (replaceDefined pairs v) := by
  rw [replaceAll_eq]
  rfl

theorem root_of_mem_tiles {p : Nat} {l : Lowering} {t : Value} (ht : t ∈ l.tiles p) :
    t.isTile = true ∧ t.isAlloc = true := by
  obtain ⟨htile, halloc, -⟩ := isTile_of_mem_tiles ht
  exact ⟨htile, halloc⟩

/-- What an operation of an expansion defines stays. -/
theorem ForwardPairs.define (hp : ForwardPairs items pairs) (h : BufferBody items)
    (hl : items[q]? = some (.op l)) {id : OpId} {v : Value}
    (hi : LoweredInst q l ⟨id, .define v⟩) : replaceAll pairs (.define v) = .define v := by
  rw [replaceAll_define]
  refine congrArg Op.define ?_
  generalize hj : (⟨id, .define v⟩ : Inst) = j at hi
  cases hi with
  | castIn hx =>
      cases hj
      have hroot := h.source_root hl hx
      exact hp.defined hroot
  | castOut =>
      cases hj
      exact hp.defined (h.target_root hl)
  | expand hkind =>
      cases hj
      subst hkind
      exact hp.defined (h.target_root hl)
  | tile hpos ht =>
      cases hj
      exact replaceDefined_alloc (root_of_mem_tiles ht).2
  | sub hpos hx =>
      cases hj
      have hroot := h.source_root hl (blocks_source hx)
      exact hp.defined hroot
  | load | subLoad | sync | store | free => cases hj
  | compute => cases l <;> cases hj

theorem ForwardPairs.use (hp : ForwardPairs items pairs) (h : BufferBody items)
    (hl : items[q]? = some (.op l)) {i : Inst} (hi : LoweredInst q l i) {v : Value}
    (hv : v ∈ (replaceAll pairs i.op).operands) : LoweredUse q l i v := by
  have htile : ∀ t ∈ l.tiles q, LoweredUse q l i (replaceUses pairs t) := fun t ht =>
    .tile (hp.isTile (root_of_mem_tiles ht).1)
  cases hi with
  | castIn hx =>
      rw [hp.define h hl (.castIn hx)] at hv
      obtain rfl := List.mem_singleton.mp hv
      exact .castIn hx
  | castOut =>
      rw [hp.define h hl .castOut] at hv
      obtain rfl := List.mem_singleton.mp hv
      exact .castOut
  | expand hkind =>
      rw [hp.define h hl (.expand hkind)] at hv
      obtain rfl := List.mem_singleton.mp hv
      exact .expand hkind
  | tile hpos ht =>
      rw [hp.define h hl (.tile hpos ht)] at hv
      obtain ⟨-, -, -, id, t, rfl⟩ := isTile_of_mem_tiles ht
      cases hv
  | sub hpos hx =>
      rw [hp.define h hl (.sub hpos hx)] at hv
      obtain rfl := List.mem_singleton.mp hv
      exact .sub
  | @load k x t hx =>
      have hroot := h.source_root hl (ins_source hx)
      rw [operands_replaceAll _ (fun v hdef => by cases hdef)] at hv
      obtain ⟨w, hw, rfl⟩ := List.mem_map.mp hv
      simp only [loadInst, Op.operands, List.mem_cons, List.not_mem_nil, or_false] at hw
      rcases hw with rfl | rfl
      · rw [hp.buffer (show (toDDR _ x).root.isTile = false from hroot)]
        exact .load hx
      · exact .tile (hp.isTile rfl)
  | @subLoad pos pos' k x tile offsets sizes strides hpos hx ht hne =>
      have hroot := h.source_root hl (blocks_source hx)
      rw [operands_replaceAll _ (fun v hdef => by cases hdef)] at hv
      obtain ⟨w, hw, rfl⟩ := List.mem_map.mp hv
      simp only [Op.operands, List.mem_cons, List.not_mem_nil, or_false] at hw
      rcases hw with rfl | rfl
      · rw [hp.buffer (show (Value.subView _ (toDDR _ x) _ _ _).root.isTile = false from hroot)]
        exact .view
      · exact htile _ ht
  | sync =>
      rw [operands_replaceAll _ (fun v hdef => by cases hdef)] at hv
      cases hv
  | @compute pos accumulate hpos =>
      rw [operands_replaceAll _ (fun v hdef => by cases l <;> cases hdef)] at hv
      obtain ⟨w, hw, rfl⟩ := List.mem_map.mp hv
      exact htile w (isTile_compute hw)
  | store =>
      have hroot := h.target_root hl
      rw [operands_replaceAll _ (fun v hdef => by cases hdef)] at hv
      obtain ⟨w, hw, rfl⟩ := List.mem_map.mp hv
      simp only [storeInst, Op.operands, List.mem_cons, List.not_mem_nil, or_false] at hw
      rcases hw with rfl | rfl
      · obtain ⟨t, ht⟩ := outTile_eq q l
        exact .tile (hp.isTile (by rw [ht]; rfl))
      · rw [hp.buffer (show (toDDR _ (l.target q)).root.isTile = false from hroot)]
        exact .store
  | free hpos ht =>
      rw [operands_replaceAll _ (fun v hdef => by cases hdef)] at hv
      obtain ⟨w, hw, rfl⟩ := List.mem_map.mp hv
      obtain rfl := List.mem_singleton.mp hw
      exact htile _ ht

end Body

/-! ## Erasing stores of a converted body -/

/-- What the pass asks of the buffer `x` before it erases the store of item `i`:
no other store, no reshape, no return, and every load of the whole buffer was
forwarded. Loads through subviews are not asked about. -/
structure DeadRoot (items : List (Item Lowering)) (i : Nat) (x : Value) : Prop where
  only : ∀ (q : Nat) (l : Lowering), items[q]? = some (.op l) → l.target q = x → q = i
  notReshaped : ∀ (q : Nat) (kind : ReduceKind) (src : Value), items[q]?
    ≠ some (.op (.reduce kind src x true))
  notReturned : ∀ (q : Nat) (vs : List Value), items[q]? = some (.ret vs) → x ∉ vs
  forwarded : ∀ (q k : Nat) (l : Lowering) (t : MemRefType), items[q]? = some (.op l) →
    l.ins[k]? = some (x, t) → ∃ j, lastStoreTo items x q = some j

/-- The operations after forwarding and erasing. -/
def remaining (items : List (Item Lowering)) (pairs : List (Value × Value))
    (erased : List OpId) : List Inst :=
  (bodyInsts (editBody (forwardEdit (forwardedIds items) pairs)
    (expandFrom 0 items))).filterMap (dropIds erased)

section Erase

variable {items : List (Item Lowering)} {pairs : List (Value × Value)} {erased : List OpId}

theorem mem_remaining {i' : Inst} : i' ∈ remaining items pairs erased
    ↔ ∃ i ∈ bodyInsts (expandFrom 0 items), i.id ∉ forwardedIds items ∧ i.id ∉ erased
      ∧ i' = { i with op := replaceAll pairs i.op } := by
  rw [remaining, bodyInsts_editBody, List.filterMap_filterMap, List.mem_filterMap]
  refine exists_congr fun i => and_congr_right fun _ => ?_
  by_cases hload : i.id ∈ forwardedIds items
  · simp [forwardEdit, hload]
  · by_cases herased : i.id ∈ erased
    · simp [forwardEdit, dropIds, hload, herased]
    · simp [forwardEdit, dropIds, hload, herased, eq_comm]

/-- An operation that stays as it is. -/
theorem mem_remaining_self {q : Nat} {item : Item Lowering} (hitem : items[q]? = some item)
    {i : Inst} (hi : i ∈ bodyInsts (item.expand q)) (hload : i.id ∉ forwardedIds items)
    (herased : i.id ∉ erased) (hop : replaceAll pairs i.op = i.op) :
    i ∈ remaining items pairs erased :=
  mem_remaining.mpr ⟨i, mem_body hitem hi, hload, herased, by rw [hop]⟩

theorem mem_users {insts : List Inst} {v : Value} {i : Inst} :
    i ∈ users insts v ↔ i ∈ insts ∧ v ∈ i.op.operands := by
  rw [users, List.mem_filter, decide_eq_true_iff]

/-- The user of a value that is left: in an expansion, or a return. -/
theorem use_of_remaining (hp : ForwardPairs items pairs) (h : BufferBody items) {i' : Inst}
    (hi : i' ∈ remaining items pairs erased) {v : Value} (hv : v ∈ i'.op.operands) :
    (∃ q l i, items[q]? = some (.op l) ∧ LoweredInst q l i ∧ LoweredUse q l i v
        ∧ i.id ∉ forwardedIds items ∧ i' = { i with op := replaceAll pairs i.op })
      ∨ ∃ (q : Nat) (vs : List Value), items[q]? = some (.ret vs) ∧ v ∈ vs := by
  obtain ⟨i, hbody, hload, -, rfl⟩ := mem_remaining.mp hi
  cases itemInst_of_mem hbody with
  | @define q w hitem =>
      have hw : w.isBuffer = true := h _ (List.mem_of_getElem? hitem)
      obtain ⟨hroot, htile, -⟩ := isBuffer_cases hw
      rw [replaceAll_define, hp.defined (by rw [hroot, htile])] at hv
      cases w with
      | memorySpaceCast | subView | expandShape => cases hw
      | _ => cases hv
  | @ret q vs hitem =>
      refine .inr ⟨q, vs, hitem, ?_⟩
      rw [operands_replaceAll _ (fun w hdef => by cases hdef)] at hv
      obtain ⟨w, hw, rfl⟩ := List.mem_map.mp hv
      obtain ⟨hroot, htile, -⟩ := isBuffer_cases (h _ (List.mem_of_getElem? hitem) w hw)
      rw [hp.buffer (by rw [hroot, htile])]
      exact hw
  | @op q l i hitem hlow =>
      exact .inl ⟨q, l, i, hitem, hlow, hp.use h hitem hlow hv, hload, rfl⟩

theorem viewOnlyFeedsStore_iff {insts : List Inst} {view : Value} {storeOp : OpId} :
    viewOnlyFeedsStore insts view storeOp = true
      ↔ ∀ use ∈ insts, view ∈ use.op.operands →
        use.id = storeOp ∨ ∃ v, use.op = .define v ∧ v.isCastOrSubView = true := by
  rw [viewOnlyFeedsStore, List.all_eq_true]
  constructor
  · intro h use huse hview
    have hall := h use (mem_users.mpr ⟨huse, hview⟩)
    rcases Bool.or_eq_true_iff.mp hall with hid | hop
    · exact .inl (of_decide_eq_true hid)
    · split at hop
      · rename_i v hv
        exact .inr ⟨v, hv, hop⟩
      · cases hop
  · intro h use huse
    obtain ⟨hmem, hview⟩ := mem_users.mp huse
    rcases h use hmem hview with hid | ⟨v, hv, hcast⟩
    · simp [hid]
    · simp [hv, hcast]

theorem rootIsDead_eq {insts : List Inst} {storeOp : OpId} {dst : Value} :
    rootIsDead insts storeOp dst = true
      ↔ ∀ user ∈ insts, getCastSource dst ∈ user.op.operands →
        ∃ v, user.op = .define v ∧ v.isCastOrSubView = true
          ∧ viewOnlyFeedsStore insts v storeOp = true := by
  rw [rootIsDead, List.all_eq_true]
  constructor
  · intro h user huser hroot
    have hall := h user (mem_users.mpr ⟨huser, hroot⟩)
    split at hall
    · rename_i v hv
      obtain ⟨hcast, hview⟩ := Bool.and_eq_true_iff.mp hall
      exact ⟨v, hv, hcast, hview⟩
    · cases hall
  · intro h user huser
    obtain ⟨hmem, hroot⟩ := mem_users.mp huser
    obtain ⟨v, hv, hcast, hview⟩ := h user hmem hroot
    simp [hv, hcast, hview]

theorem not_mem_forwardedIds (h : BufferBody items) {id : OpId}
    (hpos : ∀ k, id.pos ≠ .load k) : id ∉ forwardedIds items := by
  intro hmem
  obtain ⟨q, k, x, t, j, l, -, rfl⟩ := (mem_forwardedIds h).mp hmem
  exact hpos k rfl

/-- The cast that a store goes through feeds that store. -/
theorem castOut_feedsStore (hp : ForwardPairs items pairs) (h : BufferBody items) {q : Nat}
    {x : Value} :
    viewOnlyFeedsStore (remaining items pairs erased) (toDDR ⟨q, .castOut⟩ x) ⟨q, .store⟩
      = true := by
  refine viewOnlyFeedsStore_iff.mpr fun use huse hview => .inl ?_
  rcases use_of_remaining hp h huse hview with
    ⟨q', l, i, hl, hlow, hi, -, rfl⟩ | ⟨q', vs, hvs, hmem⟩
  · generalize hv : toDDR ⟨q, .castOut⟩ x = v at hi
    cases hi with
    | tile htile =>
        rw [← hv] at htile
        cases htile
    | castIn hx =>
        have := h.source hl hx
        rw [← hv] at this
        cases this
    | castOut =>
        rcases h.target hl with hbuffer | ⟨kind, src, dst, rfl, -⟩
        · rw [← hv] at hbuffer
          cases hbuffer
        · cases hv
    | expand hkind =>
        subst hkind
        have := (h.op hl).2 v (by simp [Lowering.operands])
        rw [← hv] at this
        cases this
    | view | sub | load => cases hv
    | store =>
        cases hv
        rfl
  · have := h _ (List.mem_of_getElem? hvs) _ hmem
    cases this

/-- The cast of a forwarded load feeds no load. -/
theorem castIn_feedsStore (hp : ForwardPairs items pairs) (h : BufferBody items) {q k : Nat}
    {x : Value} {storeOp : OpId}
    (hload : ∀ l t, items[q]? = some (.op l) → l.ins[k]? = some (x, t) →
      ∃ j, lastStoreTo items x q = some j) :
    viewOnlyFeedsStore (remaining items pairs erased) (toDDR ⟨q, .castIn k⟩ x) storeOp
      = true := by
  refine viewOnlyFeedsStore_iff.mpr fun use huse hview => .inr ?_
  rcases use_of_remaining hp h huse hview with
    ⟨q', l, i, hl, hlow, hi, hkept, rfl⟩ | ⟨q', vs, hvs, hmem⟩
  · generalize hv : toDDR ⟨q, .castIn k⟩ x = v at hi
    cases hi with
    | tile htile =>
        rw [← hv] at htile
        cases htile
    | castIn hx =>
        have := h.source hl hx
        rw [← hv] at this
        cases this
    | castOut =>
        rcases h.target hl with hbuffer | ⟨kind, src, dst, rfl, -⟩
        · rw [← hv] at hbuffer
          cases hbuffer
        · cases hv
    | expand hkind =>
        subst hkind
        have := (h.op hl).2 v (by simp [Lowering.operands])
        rw [← hv] at this
        cases this
    | view | store => cases hv
    | sub =>
        exact ⟨_, hp.define h hl hlow, rfl⟩
    | load hx =>
        cases hv
        obtain ⟨j, hj⟩ := hload l _ hl hx
        obtain ⟨-, ⟨l', hl', -⟩, -⟩ := lastStoreTo_some hj
        exact absurd ((mem_forwardedIds h).mpr
          ⟨_, _, _, _, j, l', ⟨⟨l, hl, hx⟩, hj, hl'⟩, rfl⟩) hkept
  · have := h _ (List.mem_of_getElem? hvs) _ hmem
    cases this

/-- **When the pass finds a buffer dead.** -/
theorem rootIsDead_iff (hp : ForwardPairs items pairs) (h : BufferBody items) {i : Nat}
    {x : Value} (hx : x.isBuffer = true)
    (herased : ∀ id ∈ erased, ∃ (q : Nat) (l : Lowering), id = ⟨q, .store⟩
      ∧ items[q]? = some (.op l) ∧ l.target q ≠ x) :
    rootIsDead (remaining items pairs erased) ⟨i, .store⟩ (toDDR ⟨i, .castOut⟩ x) = true
      ↔ DeadRoot items i x := by
  have hkey : getCastSource (toDDR ⟨i, .castOut⟩ x) = x := getCastSource_buffer hx
  -- what the pass finds of the operations that forwarding leaves as they are
  have hstays : ∀ (q : Nat) (pos : Pos), pos.isTransfer = false →
      (⟨q, pos⟩ : OpId) ∉ forwardedIds items ∧ (⟨q, pos⟩ : OpId) ∉ erased := by
    intro q pos hpos
    constructor
    · refine not_mem_forwardedIds h fun k heq => ?_
      rw [show pos = .load k from heq] at hpos
      cases hpos
    · intro hmem
      obtain ⟨q', l, heq, -, -⟩ := herased _ hmem
      cases heq
      cases hpos
  rw [rootIsDead_eq, hkey]
  constructor
  · intro hdead
    refine ⟨fun q l hl htarget => ?_, fun q kind src hq => ?_, fun q vs hvs hmem => ?_,
      fun q k l t hl hins => ?_⟩
    · -- another store would be a use of its cast
      obtain ⟨hcast, hstore⟩ := mem_store q l
      have hcast := mem_remaining_self hl hcast (hstays q _ rfl).1 (hstays q _ rfl).2
        (hp.define h hl .castOut)
      obtain ⟨v, hv, -, hview⟩ := hdead _ hcast
        (by rw [htarget]; exact List.mem_singleton_self x)
      cases hv
      obtain ⟨t, ht⟩ := outTile_eq q l
      have hroot := h.target_root hl
      have hsame : replaceAll pairs (storeInst q l).op = (storeInst q l).op := by
        rw [replaceAll_eq]
        show Op.dmaStore (replaceUses pairs _) (replaceUses pairs _) = _
        rw [hp.outTile, hp.buffer (show (toDDR _ (l.target q)).root.isTile = false from hroot)]
        rfl
      have hstore := mem_remaining_self hl hstore
        (not_mem_forwardedIds h fun k => by simp [storeInst])
        (fun hmem => by
          obtain ⟨q', l', heq, hl', hne⟩ := herased _ hmem
          cases heq
          rw [hl] at hl'
          cases hl'
          exact hne htarget) hsame
      rcases viewOnlyFeedsStore_iff.mp hview _ hstore (by simp [storeInst, Op.operands])
        with hid | ⟨v, hv, -⟩
      · cases hid
        rfl
      · cases hv
    · have hmem : (⟨⟨q, .expand⟩, .define (expandInit q x)⟩ : Inst)
          ∈ bodyInsts ((Lowering.reduce kind src x true).expand q) :=
        mem_bodyInsts_stmt List.mem_cons_self
      have hexpand := mem_remaining_self hq hmem (hstays q _ rfl).1 (hstays q _ rfl).2
        (hp.define h hq (.expand rfl))
      obtain ⟨v, hv, hcast, -⟩ := hdead _ hexpand (List.mem_singleton_self x)
      cases hv
      cases hcast
    · have hmem' :
          (⟨⟨q, .user 0⟩, .ret vs⟩ : Inst) ∈ bodyInsts (Item.expand q (.ret vs)) :=
        List.mem_singleton_self _
      have hsame : replaceAll pairs (.ret vs) = .ret vs := by
        rw [replaceAll_eq]
        refine congrArg Op.ret ((List.map_congr_left fun w hw => ?_).trans (List.map_id vs))
        obtain ⟨hroot, htile, -⟩ := isBuffer_cases (h _ (List.mem_of_getElem? hvs) w hw)
        exact hp.buffer (by rw [hroot, htile])
      have hret := mem_remaining_self hvs hmem' (hstays q _ rfl).1 (hstays q _ rfl).2 hsame
      obtain ⟨v, hv, -⟩ := hdead _ hret hmem
      cases hv
    · -- a load that was not forwarded is a use of its cast
      by_contra hnone
      obtain ⟨hcast, hload⟩ := mem_load (p := q) hins
      have hcast := mem_remaining_self hl hcast (hstays q _ rfl).1 (hstays q _ rfl).2
        (hp.define h hl (.castIn (ins_source hins)))
      obtain ⟨v, hv, -, hview⟩ := hdead _ hcast (List.mem_singleton_self x)
      cases hv
      have hno : ∀ x' j l', ¬ Forwards items q k x' t j l' := by
        rintro x' j l' ⟨⟨l'', hl'', hins'⟩, hj, -⟩
        rw [hl] at hl''
        cases hl''
        rw [hins] at hins'
        cases hins'
        exact hnone ⟨j, hj⟩
      have hroot := h.source_root hl (ins_source hins)
      have hsame : replaceAll pairs (loadInst q k x t).op = (loadInst q k x t).op := by
        rw [replaceAll_eq]
        show Op.dmaLoad (replaceUses pairs _) (replaceUses pairs _) = _
        rw [hp.loaded hno, hp.buffer (show (toDDR _ x).root.isTile = false from hroot)]
        rfl
      have hload := mem_remaining_self hl hload
        (fun hmem => by
          obtain ⟨q', k', x', t', j, l', hf, heq⟩ := (mem_forwardedIds h).mp hmem
          cases heq
          obtain ⟨⟨l'', hl'', hins'⟩, hj, -⟩ := hf
          rw [hl] at hl''
          cases hl''
          rw [hins] at hins'
          cases hins'
          exact hnone ⟨j, hj⟩)
        (fun hmem => by
          obtain ⟨q', l', heq, -, -⟩ := herased _ hmem
          cases heq) hsame
      rcases viewOnlyFeedsStore_iff.mp hview _ hload (by simp [loadInst, Op.operands])
        with hid | ⟨v, hv, -⟩
      · cases hid
      · cases hv
  · intro hdead user huser hroot
    rcases use_of_remaining hp h huser hroot with
      ⟨q, l, i', hl, hlow, hi, hkept, rfl⟩ | ⟨q, vs, hvs, hmem⟩
    · cases hi with
      | tile htile =>
          obtain ⟨-, hno, -⟩ := isBuffer_cases hx
          rw [hno] at htile
          cases htile
      | castIn hsource =>
          refine ⟨_, hp.define h hl hlow, rfl, castIn_feedsStore hp h fun l' t hl' hins => ?_⟩
          exact hdead.forwarded q _ l' t hl' hins
      | castOut =>
          obtain rfl := hdead.only q l hl rfl
          exact ⟨_, hp.define h hl hlow, rfl, castOut_feedsStore hp h⟩
      | expand hkind =>
          subst hkind
          exact absurd hl (hdead.notReshaped q _ _)
      | view | sub | load | store => cases hx
    · exact absurd hmem (hdead.notReturned q vs hvs)

theorem storeInst_stays (hp : ForwardPairs items pairs) (h : BufferBody items) {q : Nat}
    {l : Lowering} (hl : items[q]? = some (.op l)) :
    replaceAll pairs (storeInst q l).op = (storeInst q l).op := by
  have hroot := h.target_root hl
  rw [replaceAll_eq]
  show Op.dmaStore (replaceUses pairs _) (replaceUses pairs _) = _
  rw [hp.outTile, hp.buffer (show (toDDR _ (l.target q)).root.isTile = false from hroot)]
  rfl

end Erase

/-- **The store of item `i` to `x` is erased**: only this item stores to `x`, no
reduction reshapes it, no return names it, and it is loaded whole, but only by
later items. A matmul may read it. -/
structure ElidedStore (items : List (Item Lowering)) (i : Nat) (x : Value) : Prop where
  store : ∃ l, items[i]? = some (.op l) ∧ l.target i = x
  only : ∀ (q : Nat) (l : Lowering), items[q]? = some (.op l) → l.target q = x → q = i
  notReshaped : ∀ (q : Nat) (kind : ReduceKind) (src : Value), items[q]?
    ≠ some (.op (.reduce kind src x true))
  notReturned : ∀ (q : Nat) (vs : List Value), items[q]? = some (.ret vs) → x ∉ vs
  read : ∃ (q k : Nat) (l : Lowering) (t : MemRefType), items[q]? = some (.op l)
    ∧ l.ins[k]? = some (x, t)
  readAfter : ∀ (q k : Nat) (l : Lowering) (t : MemRefType), items[q]? = some (.op l) →
    l.ins[k]? = some (x, t) → i < q

section Elide

variable {items : List (Item Lowering)}

/-- The loads of an elided buffer were all forwarded. -/
theorem ElidedStore.forwards {i : Nat} {x : Value} (he : ElidedStore items i x) {q k : Nat}
    {l : Lowering} {t : MemRefType} (hl : items[q]? = some (.op l))
    (hx : l.ins[k]? = some (x, t)) : ∃ l', Forwards items q k x t i l' := by
  obtain ⟨l', hl', htarget⟩ := he.store
  obtain ⟨j, hj, -⟩ := lastStoreTo_isSome (he.readAfter q k l t hl hx) hl' htarget
  obtain ⟨-, ⟨m, hm, hmtarget⟩, -⟩ := lastStoreTo_some hj
  obtain rfl := he.only j m hm hmtarget
  exact ⟨l', ⟨l, hl, hx⟩, hj, hl'⟩

theorem Forwards.key {q k j : Nat} {x : Value} {t : MemRefType} {l : Lowering}
    (hf : Forwards items q k x t j l) : l.target j = x := by
  obtain ⟨-, ⟨l', hl', htarget⟩, -⟩ := lastStoreTo_some hf.last
  have hl := hf.store
  rw [hl'] at hl
  cases hl
  exact htarget

theorem exists_elidedStore {j : Nat} {l : Lowering} (hl : items[j]? = some (.op l)) :
    (∃ x, ElidedStore items j x) ↔ ElidedStore items j (l.target j) := by
  constructor
  · rintro ⟨x, he⟩
    obtain ⟨l', hl', htarget⟩ := he.store
    rw [hl] at hl'
    cases hl'
    rw [htarget]
    exact he
  · exact fun he => ⟨_, he⟩

/-- A matched store is erased when its buffer is dead. -/
theorem deadRoot_iff {q k i : Nat} {x : Value} {t : MemRefType} {l : Lowering}
    (hf : Forwards items q k x t i l) : DeadRoot items i x ↔ ElidedStore items i x := by
  obtain ⟨⟨l', hl', hx⟩, hi, hl⟩ := hf
  obtain ⟨-, hstore, -⟩ := lastStoreTo_some hi
  constructor
  · intro h
    refine ⟨hstore, h.only, h.notReshaped, h.notReturned, ⟨q, k, l', t, hl', hx⟩, ?_⟩
    intro q' k' m t' hm hx'
    obtain ⟨j, hj⟩ := h.forwarded q' k' m t' hm hx'
    obtain ⟨hlt, ⟨n, hn, htarget⟩, -⟩ := lastStoreTo_some hj
    rw [← h.only j n hn htarget]
    exact hlt
  · intro h
    refine ⟨h.only, h.notReshaped, h.notReturned, fun q' k' m t' hm hx' => ?_⟩
    obtain ⟨l'', hf'⟩ := h.forwards hm hx'
    exact ⟨i, hf'.last⟩

/-- What the pass does to one operation. -/
def elideEdit (items : List (Item Lowering)) (pairs : List (Value × Value))
    (erased : List OpId) (i : Inst) : Option Inst :=
  (forwardEdit (forwardedIds items) pairs i).bind (dropIds erased)

/-- The stores that the pass erases. -/
def ErasedIds (items : List (Item Lowering)) (erased : List OpId) : Prop :=
  ∀ id, id ∈ erased ↔ ∃ i x, ElidedStore items i x ∧ id = ⟨i, .store⟩

/-- **The pass in closed form.** -/
theorem elideCopies_eq (h : BufferBody items) : ∃ pairs erased, ForwardPairs items pairs
    ∧ ErasedIds items erased
    ∧ elideCopies (expandFrom 0 items)
      = editBody (elideEdit items pairs erased) (expandFrom 0 items) := by
  obtain ⟨pairs, hp, hforward⟩ := forwardLoads_expand h
  obtain ⟨last, hms⟩ := collected h
  have hmem := hms.mem
  obtain ⟨dead, hdead⟩ : ∃ dead : OpId → Bool, ∀ id,
      dead id = true ↔ ∃ x, ElidedStore items id.item x :=
    ⟨fun id => @decide _ (Classical.propDecidable (∃ x, ElidedStore items id.item x)),
      fun id => by simp⟩
  refine ⟨pairs, ((matchList (expandFrom 0 items)).map (·.storeOp.id)).filter dead, hp,
    fun id => ?_, ?_⟩
  · rw [List.mem_filter, List.mem_map, hdead]
    constructor
    · rintro ⟨⟨m, hm, rfl⟩, x', he⟩
      obtain ⟨q, k, x, t, j, l, -, -, rfl⟩ := (hmem m).mp hm
      exact ⟨j, x', he, rfl⟩
    · rintro ⟨i, x, he, rfl⟩
      obtain ⟨q, k, l, t, hl, hx⟩ := he.read
      obtain ⟨l', hf⟩ := he.forwards hl hx
      have hq : q < items.length := (List.getElem?_eq_some_iff.mp hl).1
      exact ⟨⟨_, (hmem _).mpr ⟨q, k, x, t, i, l', hq, hf, rfl⟩, rfl⟩, x, he⟩
  · have herase : eraseStores pairs (matchList (expandFrom 0 items))
          (editBody (forwardEdit (forwardedIds items) pairs) (expandFrom 0 items))
        = editBody (dropIds (((matchList (expandFrom 0 items)).map (·.storeOp.id)).filter dead))
          (editBody (forwardEdit (forwardedIds items) pairs) (expandFrom 0 items)) := by
      refine eraseStores_eq fun m hm => ?_
      obtain ⟨q, k, x, t, j, l, -, hf, rfl⟩ := (hmem m).mp hm
      have hkey := hf.key
      subst hkey
      obtain ⟨⟨l', hl', hx⟩, -, hl⟩ := id hf
      refine ⟨toDDR ⟨j, .castOut⟩ (l.target j), ?_, fun ids hids => ?_⟩
      · show (replaceAll pairs (storeInst j l).op).dmaDst = _
        rw [storeInst_stays hp h hl]
        rfl
      · -- stores erased before went to other buffers
        have hother : ∀ id ∈ ids, ∃ (q : Nat) (l' : Lowering), id = ⟨q, .store⟩
            ∧ items[q]? = some (.op l') ∧ l'.target q ≠ l.target j := by
          intro id hid
          obtain ⟨hd, hne, m', hm', rfl⟩ := hids id hid
          obtain ⟨q', k', x', t', j', l', -, hf', rfl⟩ := (hmem m').mp hm'
          refine ⟨j', l', rfl, hf'.store, fun heq => hne ?_⟩
          have he := (exists_elidedStore hf'.store).mp ((hdead ⟨j', .store⟩).mp hd)
          have hj : j = j' := he.only j l hl heq.symm
          rw [hj]
          rfl
        have hx := h.source hl' (ins_source hx)
        have hroot := @rootIsDead_iff _ _ _ hp h j _ hx hother
        have hbool : rootIsDead (remaining items pairs ids) ⟨j, .store⟩
            (toDDR ⟨j, .castOut⟩ (l.target j)) = dead ⟨j, .store⟩ := by
          rw [Bool.eq_iff_iff, hdead]
          exact hroot.trans ((deadRoot_iff hf).trans (exists_elidedStore hl).symm)
        exact hbool
    rw [elideCopies, hforward]
    refine herase.trans ?_
    rw [editBody_editBody]
    rfl

end Elide

end EclipseNpu.Compiler

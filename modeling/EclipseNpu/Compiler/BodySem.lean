import EclipseNpu.Compiler.Classification

/-!
# Compiler — BodySem

What a function body of casts, subviews, DMA transfers and tile operations does
to the DDR buffers: a transfer copies between a view of a buffer and a tile, a
compute operation fills its result tile. Allocating, freeing and SYNC change
nothing, as in the emitted stream, where every tile keeps its own addresses.

`TileOps` stands for the arithmetic: any functions of the tiles an operation
reads that fill its result tile.
-/

namespace EclipseNpu.Compiler

open EclipseNpu.Runtime

/-- The elements of a buffer or a tile, row by row. -/
abbrev Contents := List UInt16

/-! ## Tile operations -/

/-- What the compute operations leave in their result tiles, from the types of
the tiles and what they hold. -/
structure TileOps where
  matmul (lhs rhs dst : MemRefType) (accumulate transA transB : Bool) (a b c : Contents) :
    Contents
  ewise (kind : BinOp) (lhs rhs dst : MemRefType) (a b : Contents) : Contents
  act (kind : ActKind) (src dst : MemRefType) (a : Contents) : Contents
  reduce (kind : ReduceKind) (src dst : MemRefType) (a : Contents) : Contents
  /-- The indices of an ARGMAX. -/
  index (kind : ReduceKind) (src dst : MemRefType) (a : Contents) : Contents
  matmul_length (lhs rhs dst : MemRefType) (accumulate transA transB : Bool)
    (a b c : Contents) :
    (matmul lhs rhs dst accumulate transA transB a b c).length = dst.numElements
  ewise_length (kind : BinOp) (lhs rhs dst : MemRefType) (a b : Contents) :
    (ewise kind lhs rhs dst a b).length = dst.numElements
  act_length (kind : ActKind) (src dst : MemRefType) (a : Contents) :
    (act kind src dst a).length = dst.numElements
  reduce_length (kind : ReduceKind) (src dst : MemRefType) (a : Contents) :
    (reduce kind src dst a).length = dst.numElements

/-! ## Views -/

/-- Outside of a loop an offset is a constant. -/
def IndexValue.value : IndexValue → Nat
  | const n => n
  | ivTimes _ => 0

/-- The positions of a subview in its source. -/
def viewPositions : List Nat → List Nat → List Nat → List Nat → List Nat
  | _ :: shape, offset :: offsets, size :: sizes, stride :: strides =>
      (List.range size).flatMap fun i =>
        (viewPositions shape offsets sizes strides).map
          ((offset + i * stride) * shape.prod + ·)
  | _, _, _, _ => [0]

/-- What the positions hold. -/
def pick (c : Contents) (positions : List Nat) : Contents :=
  positions.map fun k => c.getD k 0

/-- `c` with the positions overwritten. -/
def scatter (c : Contents) (positions : List Nat) (new : Contents) : Contents :=
  (positions.zip new).foldl (fun c e => c.set e.1 e.2) c

/-- Read a buffer through a view. -/
def readView (ddr : Value → Contents) : Value → Contents
  | .memorySpaceCast _ s _ => readView ddr s
  | .expandShape _ s _ => readView ddr s
  | .subView _ s offsets sizes strides =>
      pick (readView ddr s)
        (viewPositions s.type.shape (offsets.map IndexValue.value) sizes strides)
  | v => ddr v

/-- What the buffer of a view holds after the view was written. -/
def writeView (ddr : Value → Contents) (new : Contents) : Value → Contents
  | .memorySpaceCast _ s _ => writeView ddr new s
  | .expandShape _ s _ => writeView ddr new s
  | .subView _ s offsets sizes strides =>
      writeView ddr (scatter (readView ddr s)
        (viewPositions s.type.shape (offsets.map IndexValue.value) sizes strides) new) s
  | _ => new

/-! ## Running a body -/

structure BodyState where
  /-- By the value that owns the buffer. -/
  ddr : Value → Contents
  /-- By the tile's alloc. -/
  sram : Value → Contents

namespace BodyState

def setBuffer (s : BodyState) (buffer : Value) (c : Contents) : BodyState :=
  { s with ddr := fun v => if v = buffer then c else s.ddr v }

def setTile (s : BodyState) (tile : Value) (c : Contents) : BodyState :=
  { s with sram := fun v => if v = tile then c else s.sram v }

@[simp] theorem setBuffer_sram (s : BodyState) (buffer : Value) (c : Contents) :
    (s.setBuffer buffer c).sram = s.sram := rfl

@[simp] theorem setTile_ddr (s : BodyState) (tile : Value) (c : Contents) :
    (s.setTile tile c).ddr = s.ddr := rfl

@[simp] theorem setBuffer_self (s : BodyState) (buffer : Value) (c : Contents) :
    (s.setBuffer buffer c).ddr buffer = c := if_pos rfl

@[simp] theorem setTile_self (s : BodyState) (tile : Value) (c : Contents) :
    (s.setTile tile c).sram tile = c := if_pos rfl

theorem setBuffer_ne (s : BodyState) {buffer v : Value} (c : Contents) (h : v ≠ buffer) :
    (s.setBuffer buffer c).ddr v = s.ddr v := if_neg h

theorem setTile_ne (s : BodyState) {tile v : Value} (c : Contents) (h : v ≠ tile) :
    (s.setTile tile c).sram v = s.sram v := if_neg h

end BodyState

section Run

variable (ops : TileOps)

/-- One operation. -/
def Op.step (op : Op) (s : BodyState) : BodyState :=
  match op with
  | .dmaLoad src dst => s.setTile dst (readView s.ddr src)
  | .dmaStore src dst => s.setBuffer dst.root (writeView s.ddr (s.sram src) dst)
  | .matmul lhs rhs dst accumulate transA transB =>
      s.setTile dst (ops.matmul lhs.type rhs.type dst.type accumulate transA transB
        (s.sram lhs) (s.sram rhs) (s.sram dst))
  | .ewise kind lhs rhs dst =>
      s.setTile dst (ops.ewise kind lhs.type rhs.type dst.type (s.sram lhs) (s.sram rhs))
  | .act kind src dst => s.setTile dst (ops.act kind src.type dst.type (s.sram src))
  | .reduce kind src dst idx =>
      let t := s.setTile dst (ops.reduce kind src.type dst.type (s.sram src))
      match idx with
      | some idx => t.setTile idx (ops.index kind src.type idx.type (s.sram src))
      | none => t
  | .define _ | .dealloc _ | .sync | .ret _ => s

/-- What a load reads and what the function returns: the operation and the
contents of the whole buffer. -/
abbrev Observation := OpId × Contents

def Inst.observe (i : Inst) (s : BodyState) : List Observation :=
  match i.op with
  | .dmaLoad src _ => [(i.id, s.ddr src.root)]
  | .ret vs => vs.map fun v => (i.id, s.ddr v.root)
  | _ => []

/-- The state a straight-line program leaves. -/
def run (insts : List Inst) (s : BodyState) : BodyState :=
  insts.foldl (fun s i => i.op.step ops s) s

/-- What a straight-line program observes, in order. -/
def observations : List Inst → BodyState → List Observation
  | [], _ => []
  | i :: is, s => i.observe s ++ observations is (i.op.step ops s)

/-- **The same contents** before and after a pass: for every load the pass keeps
and every return, at that point, and for the function arguments at the end. -/
structure Preserved (body body' : List Stmt) (s : BodyState) : Prop where
  points : observations ops (unrollBody body') s
    = (observations ops (unrollBody body) s).filter fun o =>
      (bodyInsts body').any fun i => i.id = o.1
  args : ∀ v : Value, v.isBlockArg = true →
    (run ops (unrollBody body') s).ddr v = (run ops (unrollBody body) s).ddr v

end Run

/-- **A store is erased only when no load reads its buffer.** -/
def ErasedUnread (body body' : List Stmt) : Prop :=
  ∀ store ∈ bodyInsts body, ∀ src dst, store.op = .dmaStore src dst →
    (∀ i ∈ bodyInsts body', i.id ≠ store.id) →
    ∀ load ∈ bodyInsts body', ∀ view tile, load.op = .dmaLoad view tile →
      view.root ≠ dst.root

/-- Every buffer holds as many elements as its type says. -/
def BodyState.Sized (s : BodyState) : Prop :=
  ∀ v, (s.ddr v).length = v.type.numElements

/-! ## Programs -/

section Program

variable {ops : TileOps}

theorem run_append (is js : List Inst) (s : BodyState) :
    run ops (is ++ js) s = run ops js (run ops is s) := List.foldl_append

theorem run_cons (i : Inst) (is : List Inst) (s : BodyState) :
    run ops (i :: is) s = run ops is (i.op.step ops s) := rfl

theorem observations_append (is js : List Inst) (s : BodyState) :
    observations ops (is ++ js) s
      = observations ops is s ++ observations ops js (run ops is s) := by
  induction is generalizing s with
  | nil => rfl
  | cons i is ih =>
      rw [List.cons_append, observations, ih, observations, List.append_assoc]
      rfl

/-- An operation that moves no data. -/
def Op.isSilent : Op → Bool
  | .define _ | .dealloc _ | .sync => true
  | _ => false

theorem Op.step_silent {op : Op} (h : op.isSilent = true) (s : BodyState) :
    op.step ops s = s := by
  cases op with
  | define | dealloc | sync => rfl
  | _ => cases h

theorem run_silent {is : List Inst} (h : ∀ i ∈ is, i.op.isSilent = true) (s : BodyState) :
    run ops is s = s := by
  induction is generalizing s with
  | nil => rfl
  | cons i is ih =>
      rw [run_cons, Op.step_silent (h i List.mem_cons_self),
        ih fun j hj => h j (List.mem_cons_of_mem i hj)]

/-! ### What a program reads and writes -/

namespace Op

/-- The tiles whose contents matter. -/
def readTiles : Op → List Value
  | dmaStore src _ => [src]
  | matmul lhs rhs dst _ _ _ => [lhs, rhs, dst]
  | ewise _ lhs rhs _ => [lhs, rhs]
  | act _ src _ | reduce _ src _ _ => [src]
  | _ => []

def writtenTiles : Op → List Value
  | dmaLoad _ dst | matmul _ _ dst _ _ _ | ewise _ _ _ dst | act _ _ dst => [dst]
  | reduce _ _ dst idx => dst :: idx.toList
  | _ => []

/-- The buffers whose contents matter. -/
def readBuffers : Op → List Value
  | dmaLoad src _ => [src.root]
  | ret vs => vs.map Value.root
  | _ => []

def writtenBuffers : Op → List Value
  | dmaStore _ dst => [dst.root]
  | _ => []

end Op

theorem readView_congr {ddr ddr' : Value → Contents} {v : Value}
    (h : ddr v.root = ddr' v.root) : readView ddr v = readView ddr' v := by
  induction v with
  | blockArg | alloc | getGlobal => exact h
  | memorySpaceCast id s m ih => exact ih h
  | expandShape id s shape ih => exact ih h
  | subView id s offsets sizes strides ih => rw [readView, readView, ih h]

/-- A view of all of its buffer. -/
def Value.isWhole : Value → Bool
  | .memorySpaceCast _ s _ | .expandShape _ s _ => s.isWhole
  | .subView .. => false
  | _ => true

theorem writeView_whole {v : Value} (h : v.isWhole = true) (ddr : Value → Contents)
    (new : Contents) : writeView ddr new v = new := by
  induction v with
  | blockArg | alloc | getGlobal => rfl
  | memorySpaceCast id s m ih => exact ih h
  | expandShape id s shape ih => exact ih h
  | subView => cases h

theorem readView_whole {v : Value} (h : v.isWhole = true) (ddr : Value → Contents) :
    readView ddr v = ddr v.root := by
  induction v with
  | blockArg | alloc | getGlobal => rfl
  | memorySpaceCast id s m ih => exact ih h
  | expandShape id s shape ih => exact ih h
  | subView => cases h

/-- Two states that agree outside some buffers and some tiles. -/
structure SameOff (buffers tiles : Value → Prop) (s t : BodyState) : Prop where
  ddr : ∀ v, ¬ buffers v → s.ddr v = t.ddr v
  sram : ∀ v, ¬ tiles v → s.sram v = t.sram v

/-- The operation reads none of these buffers and tiles, and stores to whole
buffers. -/
structure Op.Avoids (buffers tiles : Value → Prop) (op : Op) : Prop where
  buffers : ∀ v ∈ op.readBuffers, ¬ buffers v
  tiles : ∀ v ∈ op.readTiles, ¬ tiles v
  whole : ∀ src dst, op = .dmaStore src dst → dst.isWhole = true

theorem SameOff.setTile {buffers tiles : Value → Prop} {s t : BodyState}
    (h : SameOff buffers tiles s t) (tile : Value) {c d : Contents} (hc : c = d) :
    SameOff buffers tiles (s.setTile tile c) (t.setTile tile d) := by
  subst hc
  refine ⟨h.ddr, fun v hv => ?_⟩
  by_cases hvt : v = tile
  · rw [hvt, BodyState.setTile_self, BodyState.setTile_self]
  · rw [BodyState.setTile_ne s c hvt, BodyState.setTile_ne t c hvt, h.sram v hv]

theorem SameOff.setBuffer {buffers tiles : Value → Prop} {s t : BodyState}
    (h : SameOff buffers tiles s t) (buffer : Value) {c d : Contents} (hc : c = d) :
    SameOff buffers tiles (s.setBuffer buffer c) (t.setBuffer buffer d) := by
  subst hc
  refine ⟨fun v hv => ?_, h.sram⟩
  by_cases hvb : v = buffer
  · rw [hvb, BodyState.setBuffer_self, BodyState.setBuffer_self]
  · rw [BodyState.setBuffer_ne s c hvb, BodyState.setBuffer_ne t c hvb, h.ddr v hv]

/-- One operation that reads what the states agree on. -/
theorem SameOff.step {buffers tiles : Value → Prop} {s t : BodyState}
    (h : SameOff buffers tiles s t) {op : Op} (hop : op.Avoids buffers tiles) :
    SameOff buffers tiles (op.step ops s) (op.step ops t) := by
  obtain ⟨hbuffers, htiles, hwhole⟩ := hop
  cases op with
  | define | dealloc | sync | ret => exact h
  | dmaLoad src dst =>
      exact h.setTile dst (readView_congr (h.ddr _ (hbuffers _ (by simp [Op.readBuffers]))))
  | dmaStore src dst =>
      have hdst := hwhole src dst rfl
      refine h.setBuffer dst.root ?_
      rw [writeView_whole hdst, writeView_whole hdst]
      exact h.sram _ (htiles _ (by simp [Op.readTiles]))
  | matmul lhs rhs dst accumulate transA transB =>
      refine h.setTile dst ?_
      rw [h.sram lhs (htiles _ (by simp [Op.readTiles])),
        h.sram rhs (htiles _ (by simp [Op.readTiles])),
        h.sram dst (htiles _ (by simp [Op.readTiles]))]
  | ewise kind lhs rhs dst =>
      refine h.setTile dst ?_
      rw [h.sram lhs (htiles _ (by simp [Op.readTiles])),
        h.sram rhs (htiles _ (by simp [Op.readTiles]))]
  | act kind src dst =>
      refine h.setTile dst ?_
      rw [h.sram src (htiles _ (by simp [Op.readTiles]))]
  | reduce kind src dst idx =>
      have hsrc := h.sram src (htiles _ (by simp [Op.readTiles]))
      have hdst := h.setTile dst
        (congrArg (ops.reduce kind src.type dst.type) hsrc)
      cases idx with
      | none => exact hdst
      | some idx =>
          exact hdst.setTile idx (congrArg (ops.index kind src.type idx.type) hsrc)

theorem SameOff.observe {buffers tiles : Value → Prop} {s t : BodyState}
    (h : SameOff buffers tiles s t) {i : Inst} (hi : i.op.Avoids buffers tiles) :
    i.observe s = i.observe t := by
  obtain ⟨id, op⟩ := i
  have hb := hi.buffers
  cases op with
  | dmaLoad src dst =>
      show [(id, s.ddr src.root)] = [(id, t.ddr src.root)]
      rw [h.ddr _ (hb _ (by simp [Op.readBuffers]))]
  | ret vs =>
      refine List.map_congr_left fun v hv => ?_
      rw [h.ddr _ (hb _ (List.mem_map_of_mem hv))]
  | _ => rfl

/-- **A program that avoids the difference** keeps it and does not observe it. -/
theorem SameOff.run {buffers tiles : Value → Prop} {is : List Inst} {s t : BodyState}
    (h : SameOff buffers tiles s t) (his : ∀ i ∈ is, i.op.Avoids buffers tiles) :
    SameOff buffers tiles (run ops is s) (run ops is t)
      ∧ observations ops is s = observations ops is t := by
  induction is generalizing s t with
  | nil => exact ⟨h, rfl⟩
  | cons i is ih =>
      have hi := his i List.mem_cons_self
      obtain ⟨hrun, hobs⟩ := ih (h.step hi) fun j hj => his j (List.mem_cons_of_mem i hj)
      refine ⟨hrun, ?_⟩
      rw [observations, observations, h.observe hi, hobs]

/-! ### Frames -/

theorem Op.step_sram {op : Op} {v : Value} (h : v ∉ op.writtenTiles) (s : BodyState) :
    (op.step ops s).sram v = s.sram v := by
  cases op with
  | define | dealloc | sync | ret | dmaStore => rfl
  | dmaLoad | matmul | ewise | act =>
      exact BodyState.setTile_ne _ _ (by simpa [Op.writtenTiles] using h)
  | reduce kind src dst idx =>
      have hdst : v ≠ dst := fun heq => h (by simp [Op.writtenTiles, heq])
      cases idx with
      | none => exact BodyState.setTile_ne _ _ hdst
      | some idx =>
          have hidx : v ≠ idx := fun heq => h (by simp [Op.writtenTiles, heq])
          exact (BodyState.setTile_ne _ _ hidx).trans (BodyState.setTile_ne _ _ hdst)

theorem Op.step_ddr {op : Op} {v : Value} (h : v ∉ op.writtenBuffers) (s : BodyState) :
    (op.step ops s).ddr v = s.ddr v := by
  cases op with
  | dmaStore => exact BodyState.setBuffer_ne _ _ (by simpa [Op.writtenBuffers] using h)
  | reduce kind src dst idx => cases idx <;> rfl
  | _ => rfl

theorem run_sram {is : List Inst} {v : Value} (h : ∀ i ∈ is, v ∉ i.op.writtenTiles)
    (s : BodyState) : (run ops is s).sram v = s.sram v := by
  induction is generalizing s with
  | nil => rfl
  | cons i is ih =>
      rw [run_cons, ih fun j hj => h j (List.mem_cons_of_mem i hj),
        Op.step_sram (h i List.mem_cons_self)]

theorem run_ddr {is : List Inst} {v : Value} (h : ∀ i ∈ is, v ∉ i.op.writtenBuffers)
    (s : BodyState) : (run ops is s).ddr v = s.ddr v := by
  induction is generalizing s with
  | nil => rfl
  | cons i is ih =>
      rw [run_cons, ih fun j hj => h j (List.mem_cons_of_mem i hj),
        Op.step_ddr (h i List.mem_cons_self)]

end Program

end EclipseNpu.Compiler

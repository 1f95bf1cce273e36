import EclipseNpu.Compiler.EasmRoundTrip
import EclipseNpu.Compiler.Pipeline

/-!
# Compiler — EasmFile

The `.easm` file of a compiled function: `eclipse-run` reads back the stream that
was emitted (`Compiles.file`), and each line has a descriptor slot of its own below
the tensors (`Compiles.slots`).
-/

namespace EclipseNpu.Compiler

open EclipseNpu.Lib EclipseNpu.Runtime

/-! ## Lines -/

section Lines

variable {layout : Layout} {op : Op} {d : UInt32} {e : EmittedLines} {v : Value}
  {rows cols : Nat}

/-- The dimensions of a tile are small. -/
theorem dims_of_placed (hp : layout.Placed) {a : UInt32} (hv : layout.sramAddr? v = some a)
    (hshape : F16Shape v rows cols) (hrows : 0 < rows) (hcols : 0 < cols) :
    rows < 2 ^ 32 ∧ cols < 2 ^ 32 := by
  obtain ⟨-, hend⟩ := hp.sramIn v a hv
  rw [hshape.words, sramEnd_eq] at hend
  have hr := Nat.le_mul_of_pos_right rows hcols
  have hc := Nat.le_mul_of_pos_left cols hrows
  omega

theorem dims_of_shape (hshape : F16Shape v rows cols) (hrows : rows < 2 ^ 32)
    (hcols : cols < 2 ^ 32) : ∀ n ∈ v.type.shape, n < 2 ^ 32 := by
  rw [hshape.shape]
  intro n hn
  rcases List.mem_pair.mp hn with rfl | rfl
  · exact hrows
  · exact hcols

theorem Op.Lawful.indexMatches (h : op.Lawful layout) : IndexMatches op := by
  cases h with
  | compute hv =>
      cases op with
      | reduce kind src dst idx =>
          obtain ⟨-, -, -, -, ⟨hkind, rfl⟩ | ⟨i, rfl, rfl, -⟩⟩ := reduceShapes_of_accepted hv
          · simp [IndexMatches, hkind]
          · simp [IndexMatches]
      | _ => trivial
  | silent h =>
      cases op with
      | reduce => cases h
      | _ => trivial
  | _ => trivial

/-- **The lines of an operation** have numbers that are read back. -/
theorem Op.Lawful.readable (hp : layout.Placed) (h : op.Lawful layout)
    (he : opLine layout d op = some e) : ∀ line ∈ e.1, line.Readable := by
  cases h with
  | silent h =>
      cases op with
      | define | dealloc =>
          cases he
          simp
      | sync =>
          cases he
          simp [EasmLine.Readable]
      | _ => cases h
  | ret =>
      cases he
      simp
  | @loadWhole id x t rows cols hsource hx ht hrows hcols halign =>
      obtain ⟨a, ha, -⟩ := Option.bind_eq_some_iff.mp he
      obtain ⟨hr, hc⟩ := dims_of_placed hp ha ht hrows hcols
      have hdims : ∀ n ∈ (toDDR id x).type.shape, n < 2 ^ 32 :=
        dims_of_shape (v := x) hx hr hc
      exact fun line hline => (dmaLoadLine_inRange hdims he line hline).readable
  | @loadBlock id id' x t rows cols r c m n hsource hx ht _ _ hm hn halign hblock =>
      obtain ⟨a, ha, -⟩ := Option.bind_eq_some_iff.mp he
      obtain ⟨hr, hc⟩ := dims_of_placed hp ha ht hm hn
      have hdims : ∀ k ∈ (Value.subView id (toDDR id' x) [.const r, .const c] [m, n]
          [1, 1]).type.shape, k < 2 ^ 32 := by
        intro k hk
        rcases List.mem_pair.mp hk with rfl | rfl
        · exact hr
        · exact hc
      exact fun line hline => (dmaLoadLine_inRange hdims he line hline).readable
  | @store id x t rows cols hx ht hrows hcols halign =>
      have hstore := he
      obtain ⟨_, -, he⟩ := Option.bind_eq_some_iff.mp he
      obtain ⟨_, -, he⟩ := Option.bind_eq_some_iff.mp he
      obtain ⟨a, ha, -⟩ := Option.bind_eq_some_iff.mp he
      obtain ⟨hr, hc⟩ := dims_of_placed hp ha ht hrows hcols
      have hdims : ∀ n ∈ (toDDR id x).type.shape, n < 2 ^ 32 :=
        dims_of_shape (v := x) hx hr hc
      exact fun line hline => (dmaStoreLine_inRange hdims hstore line hline).readable
  | compute hv hpos hne =>
      cases op with
      | matmul lhs rhs dst acc ta tb =>
          simp only [opLine, matmulLine, Option.bind_eq_bind, Option.bind_eq_some_iff] at he
          obtain ⟨_, -, _, -, _, -, _, -, _, -, _, -, _, -, he⟩ := he
          cases he
          simp [writeLine, EasmLine.Readable]
      | ewise kind lhs rhs dst =>
          simp only [opLine, ewiseLine, Option.bind_eq_bind, Option.bind_eq_some_iff] at he
          obtain ⟨_, -, _, -, _, -, _, -, _, -, _, -, _, -, he⟩ := he
          cases he
          simp [writeLine, EasmLine.Readable]
      | act kind src dst =>
          simp only [opLine, actLine, Option.bind_eq_bind, Option.bind_eq_some_iff] at he
          obtain ⟨_, -, _, -, he⟩ := he
          cases he
          simp [writeLine, EasmLine.Readable]
      | reduce kind src dst idx =>
          obtain ⟨hsrc, -, hrows, hcols, hidx⟩ := reduceShapes_of_accepted hv
          have hline := he
          obtain ⟨_, -, he⟩ := Option.bind_eq_some_iff.mp he
          obtain ⟨a, ha, -⟩ := Option.bind_eq_some_iff.mp he
          obtain ⟨hr, hc⟩ := dims_of_placed hp ha hsrc (by omega) (by omega)
          refine fun line hmem => (reduceLine_inRange (dims_of_shape hsrc hr hc) ?_ hline line
            hmem).readable
          intro hkind
          rcases hidx with ⟨hne, -⟩ | ⟨i, -, rfl, -⟩
          · exact absurd hkind hne
          · rfl
      | _ => cases hv

theorem emitLines_readable {is : List Inst} (hp : layout.Placed)
    (hlaw : ∀ i ∈ is, i.op.Lawful layout) (he : emitLines layout d is = some e) :
    ∀ line ∈ e.1, line.Readable := by
  induction is generalizing d e with
  | nil =>
      cases he
      simp
  | cons i is ih =>
      obtain ⟨e₁, h₁, he⟩ := Option.bind_eq_some_iff.mp he
      obtain ⟨e₂, h₂, he⟩ := Option.bind_eq_some_iff.mp he
      cases he
      intro line hline
      rcases List.mem_append.mp hline with hline | hline
      · exact (hlaw i List.mem_cons_self).readable hp h₁ line hline
      · exact ih (fun j hj => hlaw j (List.mem_cons_of_mem i hj)) h₂ line hline

end Lines

/-! ## Text -/

section Text

/-- No NUL character. -/
def nulFree (text : List Char) : Bool := text.all (· != Char.ofNat 0)

theorem nulFree_iff {text : List Char} : nulFree text = true ↔ Char.ofNat 0 ∉ text := by
  rw [nulFree, List.all_eq_true]
  constructor
  · intro h hmem
    have := h _ hmem
    simp at this
  · intro h c hc
    rw [bne_iff_ne]
    rintro rfl
    exact h hc

theorem nulFree_names (line : EasmLine) : nulFree line.format.mnemonic.toList = true
    ∧ ∀ p ∈ line.format.fields, nulFree p.1.toList = true := by
  cases line with
  | ewise op => cases op <;> simp [EasmLine.format, ewiseMnemonic, nulFree]
  | reduce descAddr dst idx => cases idx <;> simp [EasmLine.format, nulFree]
  | _ => simp [EasmLine.format, nulFree]

theorem nulFree_append {xs ys : List Char} :
    nulFree (xs ++ ys) = true ↔ nulFree xs = true ∧ nulFree ys = true := by
  rw [nulFree, List.all_append, Bool.and_eq_true, nulFree, nulFree]

/-- **The text of a line** has no NUL character. -/
theorem nulFree_line {line : EasmLine} (h : line.Readable) :
    nulFree (line.format.text ++ ['\n']) = true := by
  obtain ⟨hname, hkeys⟩ := nulFree_names line
  rw [nulFree_append, LineFormat.text, nulFree_append]
  refine ⟨⟨?_, ?_⟩, by decide⟩
  · rw [nulFree_iff] at hname ⊢
    intro hmem
    rcases List.mem_append.mp hmem with hmem | hmem
    · exact hname hmem
    · exact absurd (List.eq_of_mem_replicate hmem) (by decide)
  · rw [nulFree_iff]
    intro hmem
    obtain ⟨text, htext, hmem⟩ := List.mem_flatMap.mp hmem
    obtain ⟨p, hp, rfl⟩ := List.mem_map.mp htext
    have hvalue := (h.plain.values p.2 (List.mem_map_of_mem hp)).1
    rcases List.mem_cons.mp hmem with hblank | hmem
    · exact absurd hblank (by decide)
    · rcases List.mem_append.mp hmem with hkey | hmem
      · exact nulFree_iff.mp (hkeys p hp) hkey
      · rcases List.mem_cons.mp hmem with heq | hmem
        · exact absurd heq (by decide)
        · exact absurd (hvalue _ hmem) (by decide)

theorem nulFree_easmText {lines : List EasmLine} (h : ∀ line ∈ lines, line.Readable) :
    Char.ofNat 0 ∉ easmText lines := by
  intro hmem
  obtain ⟨line, hline, hmem⟩ := List.mem_flatMap.mp hmem
  exact nulFree_iff.mp (nulFree_line (h line hline)) hmem

end Text

/-! ## Files -/

/-- `Eclipse-compile` with the text it writes. -/
def eclipseCompileFile (canonicalize : List Stmt → List Stmt)
    (args : List (Option MemRefType)) (src : List (Item LinalgOp)) :
    Option (Layout × List Char) := do
  let body ← convertLinalgToEclipse src
  let module : Module := [⟨args, canonicalize (elideCopies body)⟩]
  let layout ← eclipseAllocate .bump module
  let e ← emitLines layout DESC_STARTADDR (unrollModule module)
  return (layout, easmText e.1)

section Files

variable {canonicalize : List Stmt → List Stmt} {args : List (Option MemRefType)}
  {src : List (Item LinalgOp)} {items : List (Item Lowering)} {layout : Layout}
  {out : List EasmInsn}

theorem Compiles.placed (h : Compiles canonicalize args src items layout out) :
    layout.Placed := by
  obtain ⟨halloc, -⟩ := eclipseCompile_eq h.converted h.compiled
  exact placed_of_fits halloc h.fits.ddr h.fits.sram

theorem Compiles.lawful (h : Compiles canonicalize args src items layout out) :
    ∀ i ∈ unrollModule (compiledModule canonicalize args items), i.op.Lawful layout := by
  obtain ⟨halloc, -⟩ := eclipseCompile_eq h.converted h.compiled
  exact compiled_lawful h.converted h.buffers h.compilable h.canonical halloc

/-- **The file of a compiled function** is read back as its stream. -/
theorem Compiles.file (h : Compiles canonicalize args src items layout out) :
    ∃ text, eclipseCompileFile canonicalize args src = some (layout, text)
      ∧ decodeInsns (parseFile text) = .ok out := by
  obtain ⟨halloc, hemit⟩ := eclipseCompile_eq h.converted h.compiled
  rw [eclipseToEasm, emitInsts_eq_emitLines fun i hi => (h.lawful i hi).indexMatches,
    Option.map_map, Option.map_eq_some_iff] at hemit
  obtain ⟨e, hlines, hout⟩ := hemit
  have hread := emitLines_readable h.placed h.lawful hlines
  refine ⟨easmText e.1, ?_, ?_⟩
  · rw [eclipseCompileFile, convertLinalgToEclipse, h.converted]
    show (eclipseAllocate .bump (compiledModule canonicalize args items) >>= _) = _
    rw [halloc]
    show (emitLines layout DESC_STARTADDR (unrollModule (compiledModule canonicalize args
      items)) >>= _) = _
    rw [hlines]
    rfl
  · rw [parseFile_eq (nulFree_easmText hread), decodeInsns_easmText hread, ← hout]
    rfl

/-- Descriptor slots of their own, below the tensors. -/
structure SlotsApart (xs : List EasmInsn) : Prop where
  inside : ∀ x ∈ xs, SlotInDdr x
  apart : xs.Pairwise fun x y => ∀ a, InSlot x a → ¬ InSlot y a
  below : ∀ x ∈ xs, ∀ a, InSlot x a → a < ddrStart.toNat

theorem slotsApart_of_emitted {module : Module} (hemit : eclipseToEasm layout module = some out)
    (hqueue : descriptorCount layout module ≤ 1020) : SlotsApart out := by
  obtain ⟨e, he, rfl⟩ := Option.map_eq_some_iff.mp hemit
  obtain ⟨hmap, -⟩ := emitInsts_slots he
  rw [descriptorCount, ← emitInsts_described he] at hqueue
  have hstart : DESC_STARTADDR.toNat = 0x40000100 := rfl
  have hddr : ddrStart.toNat = 0x40010000 := rfl
  obtain ⟨hb, hp⟩ := slotAddrs_bounds (n := (described e.1).length) (d := DESC_STARTADDR)
    (by omega)
  rw [← hmap] at hb hp
  have hdesc : ∀ x ∈ e.1, x.isSync = false →
      0x40000100 ≤ x.desc.toNat ∧ x.desc.toNat + 0x40 ≤ 0x40010000 := by
    intro x hx hs
    have hslot := hb x.desc (List.mem_map_of_mem (mem_described.mpr ⟨hx, hs⟩))
    omega
  constructor
  · intro x hx hs
    have := hdesc x hx hs
    have hlen := x.descBytes_length_le
    rw [DDR_ADDR_toNat, ddrEnd_eq]
    omega
  · refine (List.pairwise_filter.mp (List.pairwise_map.mp hp)).imp ?_
    intro x y hxy a hx hy
    obtain ⟨-, h2, hs⟩ := inSlot_lt hx
    obtain ⟨h3, -, hs'⟩ := inSlot_lt hy
    have := hxy (by simp [hs]) (by simp [hs'])
    omega
  · intro x hx a ha
    obtain ⟨-, hlt, hs⟩ := inSlot_lt ha
    have := hdesc x hx hs
    omega

theorem Compiles.slots (h : Compiles canonicalize args src items layout out) :
    SlotsApart out := by
  obtain ⟨-, hemit⟩ := eclipseCompile_eq h.converted h.compiled
  exact slotsApart_of_emitted hemit h.fits.queue

/-- No store of a compiled stream writes a slot. -/
theorem Compiles.storesAvoid (h : Compiles canonicalize args src items layout out) :
    ∀ x ∈ out, ∀ y ∈ out, StoreAvoids x y := by
  obtain ⟨-, hemit⟩ := eclipseCompile_eq h.converted h.compiled
  obtain ⟨e, he, rfl⟩ := Option.map_eq_some_iff.mp hemit
  intro x hx y hy a hw hin
  have hlo := emitInsts_writes h.placed h.lawful he hx hw
  have hhi := h.slots.below y hy a hin
  omega

end Files

end EclipseNpu.Compiler

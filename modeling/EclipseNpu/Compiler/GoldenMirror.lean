import EclipseNpu.Compiler.SramLayout

/-!
# Compiler — GoldenMirror

Where `eclipse-allocate` puts the operands of a matmul with
`layout=golden-mirror`: lhs at the start of SRAM, rhs one dst size after it,
dst two dst sizes after it. Only the size of dst counts, the last matmul that
names a buffer decides, and the bump allocator of all other buffers starts at
the same address. `goldenLayoutOk_iff` says for which modules that is a sound
layout.
-/

namespace EclipseNpu.Compiler

open EclipseNpu.Lib EclipseNpu.Runtime

/-! ## The operands of a matmul -/

structure MatmulTiles where
  lhs : Value
  rhs : Value
  dst : Value
  deriving DecidableEq, Repr

namespace MatmulTiles

def values (t : MatmulTiles) : List Value := [t.lhs, t.rhs, t.dst]

/-- The three sizes in bytes. -/
def aSize (t : MatmulTiles) : Nat := t.lhs.type.sizeInBytes
def bSize (t : MatmulTiles) : Nat := t.rhs.type.sizeInBytes
def cSize (t : MatmulTiles) : Nat := t.dst.type.sizeInBytes

/-- The golden addresses. -/
def mirror (t : MatmulTiles) : List (Value × UInt32) :=
  let cSize := UInt32.ofNat t.cSize
  [(t.lhs, SRAM_ADDR), (t.rhs, SRAM_ADDR + cSize), (t.dst, SRAM_ADDR + 2 * cSize)]

/-- How far from the start of SRAM the mirror of `t` puts `v`. The entry of
dst is made last and replaces an earlier one of the same buffer. -/
def offset? (t : MatmulTiles) (v : Value) : Option Nat :=
  if v = t.dst then some (2 * t.cSize)
  else if v = t.rhs then some t.cSize
  else if v = t.lhs then some 0
  else none

end MatmulTiles

def Op.matmulTiles? : Op → Option MatmulTiles
  | .matmul lhs rhs dst _ _ _ => some ⟨lhs, rhs, dst⟩
  | _ => none

/-- The operand triples of the matmuls. -/
def matmulTiles (insts : List Inst) : List MatmulTiles :=
  insts.filterMap fun i => i.op.matmulTiles?

/-- An operand of a matmul. -/
def Mirrored (module : Module) (v : Value) : Prop :=
  ∃ t ∈ matmulTiles (moduleInsts module), v ∈ t.values

instance (module : Module) (v : Value) : Decidable (Mirrored module v) :=
  inferInstanceAs (Decidable (∃ t ∈ _, _))

/-- The last matmul that names `v` decides where it stands. -/
def mirrorOffset? (module : Module) (v : Value) : Option Nat :=
  (matmulTiles (moduleInsts module)).reverse.findSome? fun t => t.offset? v

def mirrorOffset (module : Module) (v : Value) : Nat :=
  (mirrorOffset? module v).getD 0

/-- The SRAM allocs that are left to the bump allocator. -/
def bumpAllocs (module : Module) : List Value :=
  (sramAllocs module).filter fun v => !decide (Mirrored module v)

/-- **A sound golden-mirror layout**, operand by operand: `A * A` on a
nonempty buffer is not one. -/
structure GoldenLayoutOk (module : Module) (layout : Layout) : Prop where
  bound : ∀ t ∈ matmulTiles (moduleInsts module), ∀ v ∈ t.values,
    ∃ addr, (v, addr) ∈ sramBuffers layout
  inside : ∀ t ∈ matmulTiles (moduleInsts module), ∀ v ∈ t.values,
    ∀ b ∈ sramBuffers layout, b.1 = v → BufferInSram b
  aligned : ∀ t ∈ matmulTiles (moduleInsts module), ∀ v ∈ t.values,
    ∀ b ∈ sramBuffers layout, b.1 = v → 16 ∣ b.2.toNat
  apart : ∀ t ∈ matmulTiles (moduleInsts module), t.values.Pairwise fun v w =>
    ∀ b ∈ sramBuffers layout, ∀ c ∈ sramBuffers layout, b.1 = v → c.1 = w → Apart b c
  bump : ∀ b ∈ sramBuffers layout, ∀ c ∈ sramBuffers layout,
    Mirrored module b.1 → ¬ Mirrored module c.1 → Apart b c

/-! ## Intervals -/

/-- The intervals `[p, p + s)` and `[q, q + t)` share no point. -/
def Misses (p s q t : Nat) : Prop := s = 0 ∨ t = 0 ∨ p + s ≤ q ∨ q + t ≤ p

instance (p s q t : Nat) : Decidable (Misses p s q t) :=
  inferInstanceAs (Decidable (_ ∨ _))

theorem apart_iff {b c : Value × UInt32} :
    Apart b c ↔ Misses b.2.toNat b.1.type.sizeInBytes
      c.2.toNat c.1.type.sizeInBytes := by
  unfold Apart InBuffer Misses
  refine ⟨fun h => ?_, fun h a hb hc => by omega⟩
  -- otherwise the larger of the two first bytes lies in both
  by_contra hn
  exact h (max b.2.toNat c.2.toNat) (by omega) (by omega)

theorem Misses.shift {p s q t : Nat} (base : Nat) :
    Misses (base + p) s (base + q) t ↔ Misses p s q t := by
  unfold Misses
  omega

/-! ## The golden addresses in force -/

theorem isAlloc_of_mem_allocValues {insts : List Inst} {v : Value}
    (h : v ∈ allocValues insts) : v.isAlloc = true := by
  obtain ⟨i, -, hi⟩ := List.mem_filterMap.mp h
  split at hi
  · cases hi
    rfl
  · cases hi

theorem lookup_flatMap {α β γ : Type} [BEq β] (l : List α) (f : α → List (β × γ)) (k : β) :
    (l.flatMap f).lookup k = l.findSome? fun x => (f x).lookup k := by
  induction l with
  | nil => rfl
  | cons x l ih =>
      rw [List.flatMap_cons, List.lookup_append, ih, List.findSome?_cons]
      cases (f x).lookup k <;> rfl

namespace MatmulTiles

variable {t : MatmulTiles} {v : Value}

/-- The entry of the mirror that counts for `v`. -/
theorem lookup_mirror (t : MatmulTiles) (v : Value) :
    t.mirror.reverse.lookup v
      = (t.offset? v).map fun o => SRAM_ADDR + UInt32.ofNat o := by
  have hrev : t.mirror.reverse
      = [(t.dst, SRAM_ADDR + UInt32.ofNat (2 * t.cSize)),
        (t.rhs, SRAM_ADDR + UInt32.ofNat t.cSize), (t.lhs, SRAM_ADDR)] := by
    rw [UInt32.ofNat_mul]
    rfl
  rw [hrev, offset?]
  simp only [List.lookup_cons, beq_eq_decide, List.lookup_nil]
  split_ifs <;> simp_all

theorem offset?_isSome_iff : (t.offset? v).isSome ↔ v ∈ t.values := by
  unfold offset? values
  split_ifs <;> simp_all

theorem offset?_le {o : Nat} (h : t.offset? v = some o) : o ≤ 2 * t.cSize := by
  unfold offset? at h
  split_ifs at h <;> cases h <;> omega

end MatmulTiles

section Golden

variable {module : Module} {v : Value}

theorem mirrorOffset?_isSome_iff :
    (mirrorOffset? module v).isSome ↔ Mirrored module v := by
  rw [mirrorOffset?, List.findSome?_isSome_iff]
  simp only [List.mem_reverse, MatmulTiles.offset?_isSome_iff]
  rfl

theorem mirrorOffset?_of_mirrored (h : Mirrored module v) :
    mirrorOffset? module v = some (mirrorOffset module v) := by
  obtain ⟨o, ho⟩ := Option.isSome_iff_exists.mp (mirrorOffset?_isSome_iff.mpr h)
  rw [mirrorOffset, ho]
  rfl

theorem mirrorOffset_le {n : Nat}
    (hc : ∀ t ∈ matmulTiles (moduleInsts module), t.cSize ≤ n) (h : Mirrored module v) :
    mirrorOffset module v ≤ 2 * n := by
  obtain ⟨t, ht, ho⟩ := List.exists_of_findSome?_eq_some (mirrorOffset?_of_mirrored h)
  have hle := MatmulTiles.offset?_le ho
  have := hc t (List.mem_reverse.mp ht)
  omega

/-- All matmuls of the module are mirrored. -/
theorem goldenLayout_eq {insts : List Inst}
    (halloc : ∀ t ∈ matmulTiles insts, ∀ v ∈ t.values, v.isAlloc = true) :
    goldenLayout insts = (matmulTiles insts).flatMap MatmulTiles.mirror := by
  induction insts with
  | nil => rfl
  | cons i is ih =>
      cases hop : i.op with
      | matmul lhs rhs dst acc ta tb =>
          have ht : matmulTiles (i :: is) = ⟨lhs, rhs, dst⟩ :: matmulTiles is := by
            simp [matmulTiles, hop, Op.matmulTiles?]
          rw [ht] at halloc ⊢
          have hl := halloc _ (List.mem_cons_self ..) lhs (by simp [MatmulTiles.values])
          have hr := halloc _ (List.mem_cons_self ..) rhs (by simp [MatmulTiles.values])
          have hd := halloc _ (List.mem_cons_self ..) dst (by simp [MatmulTiles.values])
          rw [List.flatMap_cons, ← ih fun t ht => halloc t (List.mem_cons_of_mem _ ht)]
          simp [goldenLayout, hop, hl, hr, hd, MatmulTiles.mirror, MatmulTiles.cSize]
      | _ =>
          have ht : matmulTiles (i :: is) = matmulTiles is := by
            simp [matmulTiles, hop, Op.matmulTiles?]
          rw [ht] at halloc ⊢
          rw [← ih halloc]
          simp [goldenLayout, hop]

/-- **The golden address** of a buffer is the one the last matmul gives it
that names it. -/
theorem goldenAddr_eq (hsram : ∀ t ∈ matmulTiles (moduleInsts module), ∀ v ∈ t.values,
      v ∈ sramAllocs module) (v : Value) :
    goldenAddr (goldenOf .goldenMirror module) v
      = (mirrorOffset? module v).map fun o => SRAM_ADDR + UInt32.ofNat o := by
  have hgolden : goldenOf .goldenMirror module
      = (matmulTiles (moduleInsts module)).flatMap MatmulTiles.mirror :=
    goldenLayout_eq fun t ht v hv =>
      isAlloc_of_mem_allocValues (List.mem_filter.mp (hsram t ht v hv)).1
  -- the entries are searched from the last one on
  rw [goldenAddr, hgolden, List.reverse_flatMap, lookup_flatMap, mirrorOffset?,
    List.map_findSome?]
  exact congrArg (List.findSome? · _) (funext fun t => t.lookup_mirror v)

end Golden

/-! ## The placement -/

section Place

variable {golden : List (Value × UInt32)} {vs : List Value}

variable (golden vs) in
theorem placeAll_fst (a : SramAllocator) :
    (placeAll golden a vs).map Prod.fst = vs := by
  induction vs generalizing a with
  | nil => rfl
  | cons v vs ih => exact congrArg (v :: ·) (ih _)

/-- A value with a golden address stands there. -/
theorem placeAll_golden {a : SramAllocator} {b : Value × UInt32} {addr : UInt32}
    (hb : b ∈ placeAll golden a vs) (hg : goldenAddr golden b.1 = some addr) :
    b.2 = addr := by
  induction vs generalizing a with
  | nil => cases hb
  | cons v vs ih =>
      rcases List.mem_cons.mp hb with rfl | hb
      · have hg : goldenAddr golden v = some addr := hg
        show (sramAddrFor golden a v (allocAlign? v)).1 = addr
        rw [sramAddrFor, hg]
      · exact ih hb

variable (golden) in
/-- The others are bump-allocated as if they were alone. -/
theorem placeAll_filter {a : SramAllocator} :
    (placeAll golden a vs).filter (fun b => (goldenAddr golden b.1).isNone)
      = placeAll [] a (vs.filter fun v => (goldenAddr golden v).isNone) := by
  induction vs generalizing a with
  | nil => rfl
  | cons v vs ih =>
      rw [placeAll]
      cases hg : goldenAddr golden v with
      | some addr =>
          -- the counter does not move
          have hr : sramAddrFor golden a v (allocAlign? v) = (addr, a) := by
            rw [sramAddrFor, hg]
          rw [hr, List.filter_cons_of_neg (by simp [hg]),
            List.filter_cons_of_neg (by simp [hg]), ih]
      | none =>
          have hr : sramAddrFor golden a v (allocAlign? v)
              = sramAddrFor [] a v (allocAlign? v) := by
            rw [sramAddrFor, hg]
            rfl
          rw [hr, List.filter_cons_of_pos (by simp [hg]),
            List.filter_cons_of_pos (by simp [hg]), ih, placeAll]

/-- Where a 32-bit bump counter puts a list of requests `(size, alignment)`. -/
def wrappedPlaces : Nat → List (Nat × Nat) → List (Nat × Nat)
  | _, [] => []
  | p, (size, alignment) :: reqs =>
      let q := alignUp p (alignment % 4294967296) % 4294967296
      (q, size) :: wrappedPlaces ((q + size) % 4294967296) reqs

theorem alignTo_toNat (value alignment : UInt32) :
    (Compiler.alignTo value alignment).toNat
      = alignUp value.toNat alignment.toNat % 4294967296 := by
  rw [Compiler.alignTo, UInt32.toNat_ofNat']
  rfl

/-- **The bump places**, when no request is refused. -/
theorem placeAll_wrapped {a : SramAllocator} (hne : ∀ b ∈ placeAll [] a vs, b.2 ≠ 0) :
    (placeAll [] a vs).map (fun b => (b.2.toNat, b.1.type.sizeInBytes))
      = wrappedPlaces a.next.toNat (vs.map sramRequest) := by
  induction vs generalizing a with
  | nil => rfl
  | cons v vs ih =>
      have hfirst := hne _ (List.mem_cons_self ..)
      have hr : sramAddrFor [] a v (allocAlign? v)
          = a.allocate (UInt32.ofNat v.type.sizeInBytes)
            (UInt32.ofNat (allocAlignment v)) := rfl
      rw [placeAll, hr] at hne ⊢
      rw [hr, SramAllocator.allocate] at hfirst
      rw [SramAllocator.allocate] at hne ⊢
      dsimp only at hfirst hne ⊢
      split_ifs at hfirst hne ⊢ with hend
      · exact absurd rfl hfirst
      · -- granted: the counter goes on behind the buffer, modulo `2 ^ 32`
        have haddr : (Compiler.alignTo a.next (UInt32.ofNat (allocAlignment v))).toNat
            = alignUp a.next.toNat (allocAlignment v % 4294967296) % 4294967296 := by
          rw [alignTo_toNat, UInt32.toNat_ofNat']
        rw [List.map_cons, List.map_cons, ih fun b hb => hne b (List.mem_cons_of_mem _ hb),
          UInt32.toNat_add, UInt32.toNat_ofNat', haddr, sramRequest, wrappedPlaces]
        simp only [Nat.add_mod_mod]

end Place

/-! ## When the layout is sound -/

/-- The other allocs ask for alignments that divide the start of SRAM, such
as the default one and every power of two up to it. -/
def AlignedRequests (module : Module) : Prop :=
  ∀ v ∈ bumpAllocs module, allocAlignment v ∣ SRAM_ADDR.toNat

/-- Where the other SRAM allocs end up, each with its size. -/
def otherPlaces (module : Module) : List (Nat × Nat) :=
  wrappedPlaces SRAM_ADDR.toNat ((bumpAllocs module).map sramRequest)

/-- Counted up from the start of SRAM the other buffers miss the operands. -/
def CountedMiss (module : Module) : Prop :=
  ∀ q ∈ otherPlaces module, ∀ v, Mirrored module v →
    Misses (SRAM_ADDR.toNat + mirrorOffset module v) v.type.sizeInBytes q.1 q.2

/-- The operands and the other buffers do not meet: one of the two kinds is
empty. Both can be nonempty only when an alignment is not a divisor of
`SRAM_ADDR` or nothing stands at `SRAM_ADDR`, and then the count decides. -/
def OthersMiss (module : Module) : Prop :=
  (∀ v, Mirrored module v → v.type.sizeInBytes = 0)
    ∨ (∀ v ∈ bumpAllocs module, v.type.sizeInBytes = 0)
    ∨ (¬ AlignedRequests module
        ∨ ∀ v, Mirrored module v → v.type.sizeInBytes ≠ 0 → mirrorOffset module v ≠ 0)
      ∧ CountedMiss module

/-- **The condition on a module.** Every operand is an SRAM alloc; at the
offset the last matmul gives it, it is aligned and resident; the operands of
one matmul miss each other; and the other buffers are out of the way. -/
structure GoldenFits (module : Module) : Prop where
  sram : ∀ t ∈ matmulTiles (moduleInsts module), ∀ v ∈ t.values, v ∈ sramAllocs module
  aligned : ∀ t ∈ matmulTiles (moduleInsts module), ∀ v ∈ t.values,
    16 ∣ mirrorOffset module v
  resident : ∀ t ∈ matmulTiles (moduleInsts module), ∀ v ∈ t.values,
    mirrorOffset module v + v.type.sizeInBytes ≤ SRAM_SIZE.toNat
  apart : ∀ t ∈ matmulTiles (moduleInsts module), t.values.Pairwise fun v w =>
    Misses (mirrorOffset module v) v.type.sizeInBytes
      (mirrorOffset module w) w.type.sizeInBytes
  others : OthersMiss module

theorem wrappedPlaces_first {p : Nat} (hp : p ≠ 0) (hlt : p < 4294967296)
    (reqs : List (Nat × Nat)) (hal : ∀ r ∈ reqs, r.2 ∣ p) (hex : ∃ r ∈ reqs, r.1 ≠ 0) :
    ∃ size, size ≠ 0 ∧ (p, size) ∈ wrappedPlaces p reqs := by
  induction reqs with
  | nil => obtain ⟨r, hr, -⟩ := hex; cases hr
  | cons r reqs ih =>
      obtain ⟨size, a⟩ := r
      have hdvd : a ∣ p := hal _ (List.mem_cons_self ..)
      have hle := Nat.le_of_dvd (Nat.pos_of_ne_zero hp) hdvd
      have hq : alignUp p (a % 4294967296) % 4294967296 = p := by
        rw [Nat.mod_eq_of_lt (Nat.lt_of_le_of_lt hle hlt), alignUp_of_dvd hp hdvd,
          Nat.mod_eq_of_lt hlt]
      rw [wrappedPlaces, hq]
      by_cases hsize : size = 0
      · subst hsize
        rw [Nat.add_zero, Nat.mod_eq_of_lt hlt]
        have hex' : ∃ r ∈ reqs, r.1 ≠ 0 := by
          obtain ⟨r, hr, hne⟩ := hex
          rcases List.mem_cons.mp hr with rfl | hr
          · exact absurd rfl hne
          · exact ⟨r, hr, hne⟩
        obtain ⟨s, hs, hmem⟩ := ih (fun r hr => hal r (List.mem_cons_of_mem _ hr)) hex'
        exact ⟨s, hs, List.mem_cons_of_mem _ hmem⟩
      · exact ⟨size, hsize, List.mem_cons_self ..⟩

theorem mem_wrappedPlaces {p : Nat} {reqs : List (Nat × Nat)} {q : Nat × Nat}
    (h : q ∈ wrappedPlaces p reqs) : ∃ r ∈ reqs, r.1 = q.2 := by
  induction reqs generalizing p with
  | nil => cases h
  | cons r reqs ih =>
      rcases List.mem_cons.mp h with rfl | h
      · exact ⟨r, List.mem_cons_self .., rfl⟩
      · obtain ⟨r', hr', heq⟩ := ih h
        exact ⟨r', List.mem_cons_of_mem _ hr', heq⟩

/-- **Bump allocation hits the mirror.** With such alignments the first
nonempty buffer stands at the start of SRAM. -/
theorem countedMiss_iff {module : Module} : CountedMiss module ↔ OthersMiss module := by
  constructor
  · intro h
    by_cases hothers : ∀ v ∈ bumpAllocs module, v.type.sizeInBytes = 0
    · exact .inr (.inl hothers)
    · refine .inr (.inr ⟨or_iff_not_imp_left.mpr fun hal v hv hsize hzero => ?_, h⟩)
      obtain ⟨w, hw, hne⟩ : ∃ w ∈ bumpAllocs module, w.type.sizeInBytes ≠ 0 := by
        simpa using hothers
      obtain ⟨s, hs, hmem⟩ := wrappedPlaces_first (p := SRAM_ADDR.toNat) (by decide)
        (by decide) ((bumpAllocs module).map sramRequest)
        (List.forall_mem_map.mpr (not_not.mp hal)) ⟨sramRequest w, List.mem_map_of_mem hw, hne⟩
      -- it starts where the operand of offset 0 does
      have hmiss := h _ hmem v hv
      rw [hzero, Misses] at hmiss
      dsimp only at hmiss
      omega
  · intro h q hq v hv
    rcases h with hempty | hempty | ⟨-, hcount⟩
    · exact .inl (hempty v hv)
    · obtain ⟨r, hr, heq⟩ := mem_wrappedPlaces hq
      obtain ⟨w, hw, rfl⟩ := List.mem_map.mp hr
      exact .inr (.inl (heq ▸ hempty w hw))
    · exact hcount q hq v hv

section Layout

variable {module : Module} {layout : Layout}

theorem mem_sramAllocs_iff (halloc : eclipseAllocate .goldenMirror module = some layout)
    {v : Value} : (∃ addr, (v, addr) ∈ sramBuffers layout) ↔ v ∈ sramAllocs module := by
  have hfst := placeAll_fst (goldenOf .goldenMirror module) (sramAllocs module)
    (.init SRAM_ADDR SRAM_SIZE)
  rw [← (sramBuffers_eq halloc).1] at hfst
  conv_rhs => rw [← hfst]
  simp

/-- **An operand** stands at its offset from the start of SRAM; no such
address wraps, when every dst fits into SRAM. -/
theorem mirrored_toNat (halloc : eclipseAllocate .goldenMirror module = some layout)
    (hsram : ∀ t ∈ matmulTiles (moduleInsts module), ∀ v ∈ t.values, v ∈ sramAllocs module)
    (hc : ∀ t ∈ matmulTiles (moduleInsts module), t.cSize ≤ SRAM_SIZE.toNat)
    {b : Value × UInt32} (hb : b ∈ sramBuffers layout) (hv : Mirrored module b.1) :
    b.2.toNat = SRAM_ADDR.toNat + mirrorOffset module b.1 := by
  have hle := mirrorOffset_le hc hv
  have hsz : SRAM_SIZE.toNat = 0x80000 := rfl
  have hgolden : goldenAddr (goldenOf .goldenMirror module) b.1
      = some (SRAM_ADDR + UInt32.ofNat (mirrorOffset module b.1)) := by
    rw [goldenAddr_eq hsram, mirrorOffset?_of_mirrored hv]
    rfl
  rw [(sramBuffers_eq halloc).1] at hb
  rw [placeAll_golden hb hgolden, UInt32.toNat_add, toNat_ofNat_small (by omega),
    SRAM_ADDR_toNat]
  omega

/-- What holds of the buffer of an operand holds at its offset. -/
theorem forall_buffer_iff (halloc : eclipseAllocate .goldenMirror module = some layout)
    (hsram : ∀ t ∈ matmulTiles (moduleInsts module), ∀ v ∈ t.values, v ∈ sramAllocs module)
    (hc : ∀ t ∈ matmulTiles (moduleInsts module), t.cSize ≤ SRAM_SIZE.toNat)
    {v : Value} (hv : Mirrored module v) {P : Nat → Prop} :
    (∀ b ∈ sramBuffers layout, b.1 = v → P b.2.toNat)
      ↔ P (SRAM_ADDR.toNat + mirrorOffset module v) := by
  constructor
  · intro h
    obtain ⟨t, ht, hvt⟩ := hv
    obtain ⟨addr, hmem⟩ := (mem_sramAllocs_iff halloc).mpr (hsram t ht v hvt)
    have := h _ hmem rfl
    rwa [mirrored_toNat halloc hsram hc hmem ⟨t, ht, hvt⟩] at this
  · rintro h b hb rfl
    rwa [mirrored_toNat halloc hsram hc hb hv]

/-- The other SRAM buffers stand where the 32-bit counter puts them. -/
theorem otherPlaces_eq (halloc : eclipseAllocate .goldenMirror module = some layout)
    (hsram : ∀ t ∈ matmulTiles (moduleInsts module), ∀ v ∈ t.values,
      v ∈ sramAllocs module) :
    ((sramBuffers layout).filter fun b => !decide (Mirrored module b.1)).map
        (fun b => (b.2.toNat, b.1.type.sizeInBytes))
      = otherPlaces module := by
  obtain ⟨hbuf, hne⟩ := sramBuffers_eq halloc
  have hpred : ∀ v, (!decide (Mirrored module v))
      = (goldenAddr (goldenOf .goldenMirror module) v).isNone := by
    intro v
    rw [goldenAddr_eq hsram, Option.isNone_map, ← Option.not_isSome, Bool.not_inj_iff,
      Bool.eq_iff_iff, decide_eq_true_iff, mirrorOffset?_isSome_iff]
  rw [otherPlaces, bumpAllocs]
  simp only [hpred]
  rw [hbuf, placeAll_filter]
  refine placeAll_wrapped fun b hb => hne b ?_
  rw [hbuf]
  exact (List.mem_filter.mp (placeAll_filter (goldenOf .goldenMirror module)
    ▸ hb)).1

/-- A sound layout has every dst in SRAM, so that its addresses are exact. -/
theorem cSize_le_of_ok (h : GoldenLayoutOk module layout) :
    ∀ t ∈ matmulTiles (moduleInsts module), t.cSize ≤ SRAM_SIZE.toNat := by
  intro t ht
  have hdst : t.dst ∈ t.values := by simp [MatmulTiles.values]
  obtain ⟨addr, hmem⟩ := h.bound t ht t.dst hdst
  obtain ⟨hlo, hhi⟩ := h.inside t ht t.dst hdst _ hmem rfl
  rw [sramEnd] at hhi
  dsimp only at hlo hhi
  rw [MatmulTiles.cSize]
  omega

theorem cSize_le_of_fits (h : GoldenFits module) :
    ∀ t ∈ matmulTiles (moduleInsts module), t.cSize ≤ SRAM_SIZE.toNat := by
  intro t ht
  have := h.resident t ht t.dst (by simp [MatmulTiles.values])
  rw [MatmulTiles.cSize]
  omega

end Layout

/-! ## Matmuls that share no operand -/

/-- Every matmul works on three SRAM allocs of its own; the peeled block and
the loop of one lowering share theirs. -/
structure OwnTiles (module : Module) : Prop where
  sram : ∀ t ∈ matmulTiles (moduleInsts module), ∀ v ∈ t.values,
    v ∈ sramAllocs module
  distinct : ∀ t ∈ matmulTiles (moduleInsts module), t.values.Nodup
  own : ∀ t ∈ matmulTiles (moduleInsts module),
    ∀ u ∈ matmulTiles (moduleInsts module), ∀ v ∈ t.values, v ∈ u.values → t = u

/-- The condition on the sizes of one matmul: dst is a multiple of 16 bytes,
everything ends inside SRAM, and neither lhs nor rhs is larger than dst,
unless there is nothing to hit. -/
structure MatmulTiles.Fits (t : MatmulTiles) : Prop where
  aligned : 16 ∣ t.cSize
  resident : t.aSize ≤ SRAM_SIZE.toNat ∧ t.cSize + t.bSize ≤ SRAM_SIZE.toNat
    ∧ 3 * t.cSize ≤ SRAM_SIZE.toNat
  lhs_rhs : t.aSize ≤ t.cSize ∨ t.aSize = 0 ∨ t.bSize = 0
  lhs_dst : t.aSize ≤ 2 * t.cSize ∨ t.aSize = 0 ∨ t.cSize = 0
  rhs_dst : t.bSize ≤ t.cSize ∨ t.bSize = 0 ∨ t.cSize = 0

section Own

variable {module : Module}

theorem mirrorOffset_own (h : OwnTiles module) {t : MatmulTiles}
    (ht : t ∈ matmulTiles (moduleInsts module)) {v : Value} (hv : v ∈ t.values) :
    t.offset? v = some (mirrorOffset module v) := by
  obtain ⟨u, hu, ho⟩ :=
    List.exists_of_findSome?_eq_some (mirrorOffset?_of_mirrored ⟨t, ht, hv⟩)
  have hvu : v ∈ u.values :=
    MatmulTiles.offset?_isSome_iff.mp (Option.isSome_iff_exists.mpr ⟨_, ho⟩)
  rwa [h.own t ht u (List.mem_reverse.mp hu) v hv hvu]

/-- The offsets of one matmul: 0, one and two dst sizes. -/
theorem mirrorOffset_values (h : OwnTiles module) {t : MatmulTiles}
    (ht : t ∈ matmulTiles (moduleInsts module)) :
    mirrorOffset module t.lhs = 0 ∧ mirrorOffset module t.rhs = t.cSize
      ∧ mirrorOffset module t.dst = 2 * t.cSize := by
  have hd := h.distinct t ht
  simp only [MatmulTiles.values, List.nodup_cons, List.mem_cons, List.not_mem_nil,
    or_false, not_or] at hd
  obtain ⟨⟨hlr, hld⟩, hrd, -⟩ := hd
  have hl := mirrorOffset_own h ht (v := t.lhs) (by simp [MatmulTiles.values])
  have hr := mirrorOffset_own h ht (v := t.rhs) (by simp [MatmulTiles.values])
  have ho := mirrorOffset_own h ht (v := t.dst) (by simp [MatmulTiles.values])
  rw [MatmulTiles.offset?, if_neg hld, if_neg hlr, if_pos rfl] at hl
  rw [MatmulTiles.offset?, if_neg hrd, if_pos rfl] at hr
  rw [MatmulTiles.offset?, if_pos rfl] at ho
  exact ⟨(Option.some.inj hl).symm, (Option.some.inj hr).symm, (Option.some.inj ho).symm⟩

/-- **Without sharing** the condition is one on the three sizes of each matmul. -/
theorem goldenFits_iff_of_own (h : OwnTiles module) :
    GoldenFits module
      ↔ (∀ t ∈ matmulTiles (moduleInsts module), t.Fits) ∧ OthersMiss module := by
  constructor
  · intro hfits
    refine ⟨fun t ht => ?_, hfits.others⟩
    obtain ⟨hl, hr, hd⟩ := mirrorOffset_values h ht
    have hal := hfits.aligned t ht
    have hin := hfits.resident t ht
    have hap := hfits.apart t ht
    simp only [MatmulTiles.values, List.forall_mem_cons, List.pairwise_cons,
      List.not_mem_nil, false_implies, implies_true, and_true, hl, hr, hd, Misses,
      List.Pairwise.nil] at hal hin hap
    constructor <;> simp only [MatmulTiles.aSize, MatmulTiles.bSize, MatmulTiles.cSize]
      at hal hin hap ⊢ <;> omega
  · intro hsizes
    obtain ⟨htiles, hothers⟩ := hsizes
    refine ⟨h.sram, fun t ht => ?_, fun t ht => ?_, fun t ht => ?_, hothers⟩
    all_goals
      obtain ⟨hl, hr, hd⟩ := mirrorOffset_values h ht
      obtain ⟨h16, ⟨hra, hrb, hrc⟩, hlr, hld, hrd⟩ := htiles t ht
      simp only [MatmulTiles.aSize, MatmulTiles.bSize, MatmulTiles.cSize] at *
      simp only [MatmulTiles.values, List.forall_mem_cons, List.pairwise_cons,
        List.not_mem_nil, false_implies, implies_true, and_true, hl, hr, hd, Misses,
        List.Pairwise.nil]
      omega

/-- With default alignments, and a nonempty dst only where lhs is nonempty,
matmuls and other SRAM buffers do not go together. -/
theorem othersMiss_iff_of_aligned (h : OwnTiles module) (hal : AlignedRequests module)
    (hshape : ∀ t ∈ matmulTiles (moduleInsts module), t.aSize = 0 → t.cSize = 0) :
    OthersMiss module
      ↔ (∀ v, Mirrored module v → v.type.sizeInBytes = 0)
        ∨ ∀ v ∈ bumpAllocs module, v.type.sizeInBytes = 0 := by
  constructor
  · intro hmiss
    rcases hmiss with hempty | hempty | ⟨hno | hzero, -⟩
    · exact .inl hempty
    · exact .inr hempty
    · exact absurd hal hno
    · refine .inl fun v hv => ?_
      obtain ⟨t, ht, hv⟩ := hv
      obtain ⟨hl, hr, -⟩ := mirrorOffset_values h ht
      have hlz := hzero t.lhs ⟨t, ht, by simp [MatmulTiles.values]⟩
      have hrz := hzero t.rhs ⟨t, ht, by simp [MatmulTiles.values]⟩
      have hsz := hshape t ht
      simp only [MatmulTiles.aSize, MatmulTiles.cSize] at hsz hr
      simp only [MatmulTiles.values, List.mem_cons, List.not_mem_nil, or_false] at hv
      rcases hv with rfl | rfl | rfl <;> omega
  · intro hempty
    rcases hempty with hempty | hempty
    · exact .inl hempty
    · exact .inr (.inl hempty)

end Own

/-! ## Converted functions -/

/-- An alloc that a lowering makes for a tile. -/
def Value.isTile : Value → Bool
  | .alloc ⟨_, .tileIn _⟩ _ _ | .alloc ⟨_, .tileOut⟩ _ _ => true
  | _ => false

def Lowering.operands : Lowering → List Value
  | .matmul lhs rhs dst => [lhs, rhs, dst]
  | .ewise _ big small out => [big, small, out]
  | .act _ src dst => [src, dst]
  | .reduce _ src dst _ => [src, dst]

/-- The function before the pass has no tiles yet. -/
def Item.NoTiles : Item Lowering → Prop
  | .define v => ∀ o ∈ v.operands, o.isTile = false
  | .op l => ∀ o ∈ l.operands, o.isTile = false
  | .ret _ => True

/-- The tiles of a lowered matmul, item `p`. -/
def loweredTiles (p : Nat) (lhs rhs dst : Value) : MatmulTiles :=
  ⟨lhsTile p lhs, rhsTile p rhs, dstTile p lhs rhs dst⟩

/-- Casts are made of operands only. -/
def CastsNoTile (insts : List Inst) : Prop :=
  ∀ i ∈ insts, ∀ id s m, i.op = .define (.memorySpaceCast id s m) → s.isTile = false

theorem castsNoTile_append {is js : List Inst} (hi : CastsNoTile is)
    (hj : CastsNoTile js) : CastsNoTile (is ++ js) := by
  intro i hmem
  rcases List.mem_append.mp hmem with hmem | hmem
  · exact hi i hmem
  · exact hj i hmem

theorem bodyInsts_append (xs ys : List Stmt) :
    bodyInsts (xs ++ ys) = bodyInsts xs ++ bodyInsts ys := List.flatMap_append

theorem castsNoTile_emitSequence {p : Nat} {ins : List (Value × MemRefType)}
    {out : Value} {compute : Op} (hins : ∀ v ∈ ins, v.1.isTile = false)
    (hout : out.isTile = false) (hcompute : ∀ v, compute ≠ .define v) :
    CastsNoTile (bodyInsts (emitSequence p ins out compute)) := by
  intro i hi id s m hop
  obtain ⟨st, hst, hi⟩ := List.mem_flatMap.mp hi
  simp only [emitSequence, List.mem_append, List.mem_mapIdx, List.mem_cons,
    List.mem_reverse, List.not_mem_nil, or_false, or_assoc] at hst
  rcases hst with ⟨k, hk, rfl⟩ | rfl | ⟨k, hk, rfl⟩ | rfl | ⟨k, hk, rfl⟩ | rfl | rfl
    | rfl | rfl | rfl | ⟨k, hk, rfl⟩ <;>
    obtain rfl := List.mem_singleton.mp hi
  · cases hop
    exact hins _ (List.getElem_mem hk)
  · cases hop
    exact hout
  all_goals first | exact absurd hop (hcompute _) | cases hop

/-- The operations of a lowered matmul: the casts, the tiles, the blocks,
the store and the frees. -/
theorem bodyInsts_lowerMatmul (p : Nat) (lhs rhs dst : Value) :
    ∃ loop, bodyInsts (lowerMatmul p lhs rhs dst)
        = [⟨⟨p, .castIn 0⟩, .define (toDDR ⟨p, .castIn 0⟩ lhs)⟩,
            ⟨⟨p, .castIn 1⟩, .define (toDDR ⟨p, .castIn 1⟩ rhs)⟩,
            ⟨⟨p, .castOut⟩, .define (toDDR ⟨p, .castOut⟩ dst)⟩,
            ⟨⟨p, .tileIn 0⟩, .define (lhsTile p lhs)⟩,
            ⟨⟨p, .tileIn 1⟩, .define (rhsTile p rhs)⟩,
            ⟨⟨p, .tileOut⟩, .define (dstTile p lhs rhs dst)⟩]
          ++ matmulBlock p lhs rhs dst (.const 0) false .subIn .load .fence .compute
          ++ loop
          ++ [⟨⟨p, .store⟩, .dmaStore (dstTile p lhs rhs dst) (toDDR ⟨p, .castOut⟩ dst)⟩,
            ⟨⟨p, .freeOut⟩, .dealloc (dstTile p lhs rhs dst)⟩,
            ⟨⟨p, .free 1⟩, .dealloc (rhsTile p rhs)⟩,
            ⟨⟨p, .free 0⟩, .dealloc (lhsTile p lhs)⟩]
      ∧ (loop = [] ∨ loop = matmulBlock p lhs rhs dst (.ivTimes tileK) true
        .loopSubIn .loopLoad .loopFence .loopCompute) := by
  by_cases htile : 1 < matmulK lhs / tileK
  · refine ⟨_, ?_, .inr rfl⟩
    simp only [lowerMatmul, if_pos htile]
    rfl
  · refine ⟨_, ?_, .inl rfl⟩
    simp only [lowerMatmul, if_neg htile]
    rfl

theorem castsNoTile_lowerMatmul {p : Nat} {lhs rhs dst : Value}
    (h : ∀ v ∈ [lhs, rhs, dst], v.isTile = false) :
    CastsNoTile (bodyInsts (lowerMatmul p lhs rhs dst)) := by
  obtain ⟨loop, hbody, hloop⟩ := bodyInsts_lowerMatmul p lhs rhs dst
  have hblock : ∀ off acc sub load fence mac, CastsNoTile
      (matmulBlock p lhs rhs dst off acc sub load fence mac) := by
    intro off acc sub load fence mac i hi id s m hop
    simp only [matmulBlock, List.mem_cons, List.not_mem_nil, or_false] at hi
    rcases hi with rfl | rfl | rfl | rfl | rfl | rfl | rfl <;> cases hop
  rw [hbody]
  refine castsNoTile_append (castsNoTile_append (castsNoTile_append ?_ (hblock _ _ _ _ _ _)) ?_) ?_
  · intro i hi id s m hop
    simp only [List.mem_cons, List.not_mem_nil, or_false] at hi
    rcases hi with rfl | rfl | rfl | rfl | rfl | rfl <;> cases hop <;>
      exact h _ (by simp)
  · rcases hloop with rfl | rfl
    · exact fun i hi => by cases hi
    · exact hblock _ _ _ _ _ _
  · intro i hi id s m hop
    simp only [List.mem_cons, List.not_mem_nil, or_false] at hi
    rcases hi with rfl | rfl | rfl | rfl <;> cases hop

theorem castsNoTile_expand {p : Nat} {item : Item Lowering} (h : item.NoTiles) :
    CastsNoTile (bodyInsts (item.expand p)) := by
  cases item with
  | define v =>
      intro i hi id s m hop
      obtain rfl := List.mem_singleton.mp hi
      cases hop
      exact h s (List.mem_singleton_self s)
  | ret vs =>
      intro i hi id s m hop
      obtain rfl := List.mem_singleton.mp hi
      cases hop
  | op l =>
      cases l with
      | matmul lhs rhs dst => exact castsNoTile_lowerMatmul h
      | ewise kind big small out =>
          refine castsNoTile_emitSequence (fun v hv => ?_) (h _ (by simp [Lowering.operands]))
            fun v hv => by cases hv
          simp only [List.mem_cons, List.not_mem_nil, or_false] at hv
          rcases hv with rfl | rfl <;> exact h _ (by simp [Lowering.operands])
      | act kind src dst =>
          refine castsNoTile_emitSequence (fun v hv => ?_) (h _ (by simp [Lowering.operands]))
            fun v hv => by cases hv
          obtain rfl := List.mem_singleton.mp hv
          exact h _ (by simp [Lowering.operands])
      | reduce kind src dst reshape =>
          have hsrc : ∀ v ∈ [(src, sramTypeOf src)], v.1.isTile = false := by
            intro v hv
            obtain rfl := List.mem_singleton.mp hv
            exact h _ (by simp [Lowering.operands])
          cases reshape with
          | false =>
              exact castsNoTile_emitSequence hsrc (h _ (by simp [Lowering.operands]))
                fun v hv => by cases hv
          | true =>
              refine castsNoTile_append (show CastsNoTile [_] from ?_)
                (castsNoTile_emitSequence hsrc rfl fun v hv => by cases hv)
              intro i hi id s m hop
              obtain rfl := List.mem_singleton.mp hi
              cases hop

theorem castsNoTile_expandFrom {items : List (Item Lowering)} {p : Nat}
    (h : ∀ item ∈ items, item.NoTiles) :
    CastsNoTile (bodyInsts (expandFrom p items)) := by
  induction items generalizing p with
  | nil => exact fun i hi => by cases hi
  | cons item items ih =>
      rw [expandFrom, bodyInsts_append]
      exact castsNoTile_append (castsNoTile_expand (h _ (List.mem_cons_self ..)))
        (ih fun item hi => h item (List.mem_cons_of_mem _ hi))

theorem matmulTiles_append (is js : List Inst) :
    matmulTiles (is ++ js) = matmulTiles is ++ matmulTiles js :=
  List.filterMap_append

theorem allocValues_append (is js : List Inst) :
    allocValues (is ++ js) = allocValues is ++ allocValues js :=
  List.filterMap_append

theorem matmulTiles_emitSequence {p : Nat} {ins : List (Value × MemRefType)}
    {out : Value} {compute : Op} (h : compute.matmulTiles? = none) :
    matmulTiles (bodyInsts (emitSequence p ins out compute)) = [] := by
  refine List.filterMap_eq_nil_iff.mpr fun i hi => ?_
  obtain ⟨st, hst, hi⟩ := List.mem_flatMap.mp hi
  simp only [emitSequence, List.mem_append, List.mem_mapIdx, List.mem_cons,
    List.mem_reverse, List.not_mem_nil, or_false, or_assoc] at hst
  rcases hst with ⟨k, hk, rfl⟩ | rfl | ⟨k, hk, rfl⟩ | rfl | ⟨k, hk, rfl⟩ | rfl | rfl
    | rfl | rfl | rfl | ⟨k, hk, rfl⟩ <;>
    obtain rfl := List.mem_singleton.mp hi <;> first | rfl | exact h

/-- The matmuls of one item: the tiles of its lowering, which allocates them. -/
theorem matmulTiles_expand {p : Nat} {item : Item Lowering} {t : MatmulTiles}
    (ht : t ∈ matmulTiles (bodyInsts (item.expand p))) :
    ∃ lhs rhs dst, item = .op (.matmul lhs rhs dst) ∧ t = loweredTiles p lhs rhs dst
      ∧ ∀ v ∈ t.values, v ∈ allocValues (bodyInsts (item.expand p)) := by
  cases item with
  | define v => cases ht
  | ret vs => cases ht
  | op l =>
      cases l with
      | matmul lhs rhs dst =>
          obtain ⟨loop, hbody, hloop⟩ := bodyInsts_lowerMatmul p lhs rhs dst
          have htiles : t = loweredTiles p lhs rhs dst := by
            replace ht : t ∈ matmulTiles (bodyInsts (lowerMatmul p lhs rhs dst)) := ht
            rw [hbody, matmulTiles_append, matmulTiles_append, matmulTiles_append] at ht
            rcases hloop with rfl | rfl <;>
              simpa [matmulTiles, matmulBlock, Op.matmulTiles?, loweredTiles] using ht
          refine ⟨lhs, rhs, dst, rfl, htiles, fun v hv => ?_⟩
          show v ∈ allocValues (bodyInsts (lowerMatmul p lhs rhs dst))
          rw [hbody, List.append_assoc, List.append_assoc, allocValues_append]
          refine List.mem_append_left _ ?_
          simpa [htiles, loweredTiles, MatmulTiles.values, allocValues, toDDR, lhsTile,
            rhsTile, dstTile, tileIn, tileOut] using hv
      | ewise kind big small out =>
          rw [Item.expand, Lowering.expand, emitEwiseSequence,
            matmulTiles_emitSequence rfl] at ht
          cases ht
      | act kind src dst =>
          rw [Item.expand, Lowering.expand, lowerAct, matmulTiles_emitSequence rfl] at ht
          cases ht
      | reduce kind src dst reshape =>
          cases reshape with
          | false =>
              rw [Item.expand, Lowering.expand, lowerReduce,
                matmulTiles_emitSequence rfl] at ht
              cases ht
          | true =>
              replace ht : t ∈ matmulTiles (bodyInsts (lowerReduce p kind src
                (expandInit p dst))) := ht
              rw [lowerReduce, matmulTiles_emitSequence rfl] at ht
              cases ht

theorem matmulTiles_expandFrom {items : List (Item Lowering)} {p : Nat} {t : MatmulTiles}
    (ht : t ∈ matmulTiles (bodyInsts (expandFrom p items))) :
    ∃ k lhs rhs dst, items[k]? = some (.op (.matmul lhs rhs dst))
      ∧ t = loweredTiles (p + k) lhs rhs dst
      ∧ ∀ v ∈ t.values, v ∈ allocValues (bodyInsts (expandFrom p items)) := by
  induction items generalizing p with
  | nil => cases ht
  | cons item items ih =>
      rw [expandFrom, bodyInsts_append, matmulTiles_append] at ht
      rw [expandFrom, bodyInsts_append, allocValues_append]
      rcases List.mem_append.mp ht with ht | ht
      · obtain ⟨lhs, rhs, dst, rfl, htiles, hmem⟩ := matmulTiles_expand ht
        exact ⟨0, lhs, rhs, dst, rfl, htiles, fun v hv =>
          List.mem_append_left _ (hmem v hv)⟩
      · obtain ⟨k, lhs, rhs, dst, hk, htiles, hmem⟩ := ih ht
        refine ⟨k + 1, lhs, rhs, dst, hk, ?_, fun v hv =>
          List.mem_append_right _ (hmem v hv)⟩
        rw [htiles, Nat.add_assoc, Nat.add_comm 1]

/-- A lowered tile belongs to the default space. -/
theorem loweredTiles_value {p : Nat} {lhs rhs dst v : Value}
    (hv : v ∈ (loweredTiles p lhs rhs dst).values) :
    v.isTile = true ∧ v.type.memorySpace = SRAM_MEMORY_SPACE
      ∧ ∃ pos t, v = .alloc ⟨p, pos⟩ t none := by
  simp only [MatmulTiles.values, loweredTiles, List.mem_cons, List.not_mem_nil,
    or_false] at hv
  rcases hv with rfl | rfl | rfl <;> exact ⟨rfl, rfl, _, _, rfl⟩

/-- **Converted functions have their own tiles**: no operand is shared after
`convert-linalg-to-eclipse`. -/
theorem ownTiles_expandFrom {args : List (Option MemRefType)}
    {items : List (Item Lowering)} (h : ∀ item ∈ items, item.NoTiles) :
    OwnTiles [{ args := args, body := expandFrom 0 items }] := by
  have hinsts : moduleInsts [{ args := args, body := expandFrom 0 items }]
      = bodyInsts (expandFrom 0 items) := List.append_nil _
  refine ⟨fun t ht v hv => ?_, fun t ht => ?_, fun t ht u hu v hv hvu => ?_⟩
  · rw [hinsts] at ht
    rw [sramAllocs, hinsts]
    obtain ⟨k, lhs, rhs, dst, -, rfl, hmem⟩ := matmulTiles_expandFrom ht
    obtain ⟨htile, hspace, -⟩ := loweredTiles_value hv
    refine List.mem_filter.mpr ⟨hmem v hv, ?_⟩
    -- no cast to DDR uses a tile
    rw [isSRAM, hspace, decide_eq_true rfl, Bool.true_and, List.all_eq_true]
    intro use huse
    obtain ⟨hbody, hop⟩ := List.mem_filter.mp huse
    split
    · rename_i id s m hcast
      rw [hcast] at hop
      obtain rfl := List.mem_singleton.mp (of_decide_eq_true hop)
      rw [castsNoTile_expandFrom h use hbody id v m hcast] at htile
      cases htile
    · rfl
  · rw [hinsts] at ht
    obtain ⟨k, lhs, rhs, dst, -, rfl, -⟩ := matmulTiles_expandFrom ht
    simp [MatmulTiles.values, loweredTiles, lhsTile, rhsTile, dstTile, tileIn, tileOut]
  · rw [hinsts] at ht hu
    obtain ⟨k, lhs, rhs, dst, hk, rfl, -⟩ := matmulTiles_expandFrom ht
    obtain ⟨l, lhs', rhs', dst', hl, rfl, -⟩ := matmulTiles_expandFrom hu
    obtain ⟨-, -, pos, ty, rfl⟩ := loweredTiles_value hv
    obtain ⟨-, -, pos', ty', heq⟩ := loweredTiles_value hvu
    -- the item number of the tile names the lowering
    obtain rfl : k = l := by
      simp only [Value.alloc.injEq, OpId.mk.injEq] at heq
      omega
    rw [hk] at hl
    cases hl
    rfl

/-- **For a converted function** whose other buffers ask for such alignments
the condition is one on sizes: every matmul fits, and the matmuls are empty
or all other SRAM buffers are. -/
theorem goldenFits_expandFrom {args : List (Option MemRefType)}
    {items : List (Item Lowering)} (h : ∀ item ∈ items, item.NoTiles)
    (hbits : ∀ lhs rhs dst, .op (.matmul lhs rhs dst) ∈ items → lhs.type.elementBits ≠ 0)
    {module : Module} (hmodule : module = [{ args := args, body := expandFrom 0 items }])
    (hal : AlignedRequests module) :
    GoldenFits module ↔ (∀ t ∈ matmulTiles (moduleInsts module), t.Fits)
      ∧ ((∀ v, Mirrored module v → v.type.sizeInBytes = 0)
        ∨ ∀ v ∈ bumpAllocs module, v.type.sizeInBytes = 0) := by
  subst hmodule
  have hown : OwnTiles [{ args := args, body := expandFrom 0 items }] :=
    ownTiles_expandFrom h
  rw [goldenFits_iff_of_own hown, othersMiss_iff_of_aligned hown hal]
  intro t ht hzero
  rw [show moduleInsts [{ args := args, body := expandFrom 0 items }]
    = bodyInsts (expandFrom 0 items) from List.append_nil _] at ht
  obtain ⟨k, lhs, rhs, dst, hk, rfl, -⟩ := matmulTiles_expandFrom ht
  have hne := hbits lhs rhs dst (List.mem_of_getElem? hk)
  -- an empty lhs tile has no rows, and then dst has none either
  have hrows : matmulM lhs = 0 := by
    simp only [MatmulTiles.aSize, loweredTiles, lhsTile, tileIn, Value.type,
      MemRefType.sizeInBytes, MemRefType.numElements, tileK, List.prod_cons,
      List.prod_nil] at hzero
    rw [Nat.mul_right_comm] at hzero
    have : matmulM lhs * lhs.type.elementBits = 0 := by omega
    exact (Nat.mul_eq_zero.mp this).resolve_right hne
  have hc : (loweredTiles (0 + k) lhs rhs dst).cSize
      = 0 * (matmulN rhs * 1) * dst.type.elementBits / 8 := by rw [← hrows]; rfl
  rw [hc, Nat.zero_mul, Nat.zero_mul, Nat.zero_div]

/-! ## A matmul alone, and a matmul before another operation -/

/-- `lhs * rhs` of two arguments, a `rows`x16 and a 16x`cols` one, and then
the operations `rest` on the result. -/
def goldenItems (rows cols : Nat) (rest : Value → List (Item Lowering)) :
    List (Item Lowering) :=
  let dst : Value := .alloc ⟨0, .user 0⟩ (f16Type rows cols) (some 64)
  [.define dst, .op (.matmul (.blockArg 0 0 (f16Type rows 16))
    (.blockArg 0 1 (f16Type 16 cols)) dst)] ++ rest dst

def goldenModule (rows cols : Nat) (rest : Value → List (Item Lowering)) : Module :=
  [{ args := [some (f16Type rows 16), some (f16Type 16 cols)]
     body := expandFrom 0 (goldenItems rows cols rest) }]

/-- Return the product. -/
def retItems (dst : Value) : List (Item Lowering) := [.ret [dst]]

/-- Return `exp` of the product. -/
def expItems (dst : Value) : List (Item Lowering) :=
  let out : Value := .alloc ⟨2, .user 0⟩ dst.type (some 64)
  [.define out, .op (.act .EXP dst out), .ret [out]]

instance (t : MatmulTiles) : Decidable t.Fits :=
  decidable_of_iff (16 ∣ t.cSize
      ∧ (t.aSize ≤ SRAM_SIZE.toNat ∧ t.cSize + t.bSize ≤ SRAM_SIZE.toNat
        ∧ 3 * t.cSize ≤ SRAM_SIZE.toNat)
      ∧ (t.aSize ≤ t.cSize ∨ t.aSize = 0 ∨ t.bSize = 0)
      ∧ (t.aSize ≤ 2 * t.cSize ∨ t.aSize = 0 ∨ t.cSize = 0)
      ∧ (t.bSize ≤ t.cSize ∨ t.bSize = 0 ∨ t.cSize = 0))
    ⟨fun ⟨h1, h2, h3, h4, h5⟩ => ⟨h1, h2, h3, h4, h5⟩,
      fun ⟨h1, h2, h3, h4, h5⟩ => ⟨h1, h2, h3, h4, h5⟩⟩

theorem ownTiles_goldenModule (rows cols : Nat) :
    OwnTiles (goldenModule rows cols retItems) := by
  refine ownTiles_expandFrom fun item hi => ?_
  simp only [goldenItems, retItems, List.cons_append, List.nil_append, List.mem_cons,
    List.not_mem_nil, or_false] at hi
  rcases hi with rfl | rfl | rfl <;>
    simp [Item.NoTiles, Value.operands, Lowering.operands, Value.isTile]

/-! ## The layout, clause by clause -/

section Clauses

variable {module : Module} {layout : Layout} {v w : Value}

theorem operand_aligned_iff (halloc : eclipseAllocate .goldenMirror module = some layout)
    (hsram : ∀ t ∈ matmulTiles (moduleInsts module), ∀ v ∈ t.values, v ∈ sramAllocs module)
    (hc : ∀ t ∈ matmulTiles (moduleInsts module), t.cSize ≤ SRAM_SIZE.toNat)
    (hv : Mirrored module v) :
    (∀ b ∈ sramBuffers layout, b.1 = v → 16 ∣ b.2.toNat) ↔ 16 ∣ mirrorOffset module v :=
  (forall_buffer_iff halloc hsram hc hv).trans (Nat.dvd_add_iff_right (by decide)).symm

theorem operand_inside_iff (halloc : eclipseAllocate .goldenMirror module = some layout)
    (hsram : ∀ t ∈ matmulTiles (moduleInsts module), ∀ v ∈ t.values, v ∈ sramAllocs module)
    (hc : ∀ t ∈ matmulTiles (moduleInsts module), t.cSize ≤ SRAM_SIZE.toNat)
    (hv : Mirrored module v) :
    (∀ b ∈ sramBuffers layout, b.1 = v → BufferInSram b)
      ↔ mirrorOffset module v + v.type.sizeInBytes ≤ SRAM_SIZE.toNat := by
  have hend : sramEnd = SRAM_ADDR.toNat + SRAM_SIZE.toNat := rfl
  have hsize : (∀ b ∈ sramBuffers layout, b.1 = v → BufferInSram b)
      ↔ ∀ b ∈ sramBuffers layout, b.1 = v → SRAM_ADDR.toNat ≤ b.2.toNat
        ∧ b.2.toNat + v.type.sizeInBytes ≤ sramEnd := by
    refine forall₂_congr fun b _ => forall_congr' fun hbv => ?_
    rw [BufferInSram, hbv]
  rw [hsize, forall_buffer_iff halloc hsram hc hv
    (P := fun p => SRAM_ADDR.toNat ≤ p ∧ p + v.type.sizeInBytes ≤ sramEnd)]
  omega

theorem operands_apart_iff (halloc : eclipseAllocate .goldenMirror module = some layout)
    (hsram : ∀ t ∈ matmulTiles (moduleInsts module), ∀ v ∈ t.values, v ∈ sramAllocs module)
    (hc : ∀ t ∈ matmulTiles (moduleInsts module), t.cSize ≤ SRAM_SIZE.toNat)
    (hv : Mirrored module v) (hw : Mirrored module w) :
    (∀ b ∈ sramBuffers layout, ∀ c ∈ sramBuffers layout, b.1 = v → c.1 = w → Apart b c)
      ↔ Misses (mirrorOffset module v) v.type.sizeInBytes
        (mirrorOffset module w) w.type.sizeInBytes := by
  constructor
  · intro h
    refine (Misses.shift SRAM_ADDR.toNat).mp ?_
    refine (forall_buffer_iff halloc hsram hc hv (P := fun p => Misses p _ _ _)).mp ?_
    rintro b hb rfl
    refine (forall_buffer_iff halloc hsram hc hw (P := fun q => Misses _ _ q _)).mp ?_
    rintro c hmem rfl
    exact apart_iff.mp (h b hb c hmem rfl rfl)
  · rintro h b hb c hmem rfl rfl
    rw [apart_iff, mirrored_toNat halloc hsram hc hb hv, mirrored_toNat halloc hsram hc hmem hw]
    exact (Misses.shift _).mpr h

theorem others_apart_iff (halloc : eclipseAllocate .goldenMirror module = some layout)
    (hsram : ∀ t ∈ matmulTiles (moduleInsts module), ∀ v ∈ t.values, v ∈ sramAllocs module)
    (hc : ∀ t ∈ matmulTiles (moduleInsts module), t.cSize ≤ SRAM_SIZE.toNat) :
    (∀ b ∈ sramBuffers layout, ∀ c ∈ sramBuffers layout,
        Mirrored module b.1 → ¬ Mirrored module c.1 → Apart b c)
      ↔ CountedMiss module := by
  constructor
  · intro h q hq v hv
    rw [← otherPlaces_eq halloc hsram] at hq
    obtain ⟨c, hother, rfl⟩ := List.mem_map.mp hq
    obtain ⟨hmem, hno⟩ := List.mem_filter.mp hother
    refine (forall_buffer_iff halloc hsram hc hv (P := fun p => Misses p _ _ _)).mp ?_
    rintro b hb rfl
    exact apart_iff.mp (h b hb c hmem hv (by simpa using hno))
  · intro h b hb c hmem hv hno
    have hq : (c.2.toNat, c.1.type.sizeInBytes) ∈ otherPlaces module := by
      rw [← otherPlaces_eq halloc hsram]
      exact List.mem_map.mpr ⟨c, List.mem_filter.mpr ⟨hmem, by simpa using hno⟩, rfl⟩
    rw [apart_iff, mirrored_toNat halloc hsram hc hb hv]
    exact h _ hq b.1 hv

end Clauses

/-- **When the golden-mirror layout is sound**: for every module the pass
accepts, exactly when the operands fit at the offsets the last matmuls give
them and the other SRAM buffers are out of their way. -/
theorem goldenLayoutOk_iff {module : Module} {layout : Layout}
    (halloc : eclipseAllocate .goldenMirror module = some layout) :
    GoldenLayoutOk module layout ↔ GoldenFits module := by
  constructor
  · intro hok
    have hsram : ∀ t ∈ matmulTiles (moduleInsts module), ∀ v ∈ t.values,
        v ∈ sramAllocs module := fun t ht v hv =>
      (mem_sramAllocs_iff halloc).mp (hok.bound t ht v hv)
    have hc := cSize_le_of_ok hok
    constructor
    · exact hsram
    · intro t ht v hv
      exact (operand_aligned_iff halloc hsram hc ⟨t, ht, hv⟩).mp (hok.aligned t ht v hv)
    · intro t ht v hv
      exact (operand_inside_iff halloc hsram hc ⟨t, ht, hv⟩).mp (hok.inside t ht v hv)
    · intro t ht
      refine (hok.apart t ht).imp_of_mem fun hv hw => ?_
      exact (operands_apart_iff halloc hsram hc ⟨t, ht, hv⟩ ⟨t, ht, hw⟩).mp
    · exact countedMiss_iff.mp ((others_apart_iff halloc hsram hc).mp hok.bump)
  · intro hfits
    have hsram := hfits.sram
    have hc := cSize_le_of_fits hfits
    constructor
    · intro t ht v hv
      exact (mem_sramAllocs_iff halloc).mpr (hsram t ht v hv)
    · intro t ht v hv
      exact (operand_inside_iff halloc hsram hc ⟨t, ht, hv⟩).mpr (hfits.resident t ht v hv)
    · intro t ht v hv
      exact (operand_aligned_iff halloc hsram hc ⟨t, ht, hv⟩).mpr (hfits.aligned t ht v hv)
    · intro t ht
      refine (hfits.apart t ht).imp_of_mem fun hv hw => ?_
      exact (operands_apart_iff halloc hsram hc ⟨t, ht, hv⟩ ⟨t, ht, hw⟩).mpr
    · exact (others_apart_iff halloc hsram hc).mpr (countedMiss_iff.mpr hfits.others)

theorem goldenLayoutOk_iff_goldenModule : ∃ layout,
    eclipseAllocate .goldenMirror (goldenModule 128 128 retItems) = some layout
      ∧ GoldenLayoutOk (goldenModule 128 128 retItems) layout := by
  have hrun : (eclipseAllocate .goldenMirror
      (goldenModule 128 128 retItems)).isSome = true := by decide +kernel
  obtain ⟨layout, halloc⟩ := Option.isSome_iff_exists.mp hrun
  refine ⟨layout, halloc, (goldenLayoutOk_iff halloc).mpr
    ((goldenFits_iff_of_own (ownTiles_goldenModule 128 128)).mpr
      ⟨by decide +kernel, .inr (.inl ?_)⟩)⟩
  have hnone : bumpAllocs (goldenModule 128 128 retItems) = [] := by decide +kernel
  rw [hnone]
  exact fun q hq => by cases hq

/-- **The mirror is hit**: `exp` of a 128x128 product has its tiles on top of
those of the matmul. -/
theorem golden_mirror_overlaps : ∃ layout,
    eclipseAllocate .goldenMirror (goldenModule 128 128 expItems) = some layout
      ∧ ¬ GoldenLayoutOk (goldenModule 128 128 expItems) layout := by
  have hrun : ((eclipseAllocate .goldenMirror (goldenModule 128 128 expItems)).any
      fun layout => decide (∃ b ∈ sramBuffers layout, ∃ c ∈ sramBuffers layout,
        Mirrored (goldenModule 128 128 expItems) b.1
          ∧ ¬ Mirrored (goldenModule 128 128 expItems) c.1
          ∧ ¬ Misses b.2.toNat b.1.type.sizeInBytes
            c.2.toNat c.1.type.sizeInBytes)) = true := by decide +kernel
  cases halloc : eclipseAllocate .goldenMirror (goldenModule 128 128 expItems) with
  | none => rw [halloc] at hrun; cases hrun
  | some layout =>
      rw [halloc] at hrun
      obtain ⟨b, hb, c, hc, hbm, hcm, hhit⟩ := of_decide_eq_true hrun
      exact ⟨layout, rfl, fun h => hhit (apart_iff.mp (h.bump b hb c hc hbm hcm))⟩

end EclipseNpu.Compiler

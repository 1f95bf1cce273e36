import EclipseNpu.Compiler.DdrLayout
import EclipseNpu.Lib.Bump

/-!
# Compiler — SramLayout

Where `eclipse-allocate` puts the SRAM buffers with `layout=bump`. The
allocator works in 32 bits: its bound check `alignd + size > base + size`
is right as long as the sum does not wrap, and the caller truncates sizes
and alignments before it. `bumpLayoutOk_iff` compares it with bump
allocation on unbounded integers.
-/

namespace EclipseNpu.Compiler

open EclipseNpu.Lib EclipseNpu.Runtime

/-! ## What the layout should be -/

/-- The buffers bound to SRAM, with their addresses, in binding order. -/
def sramBuffers (layout : Layout) : List (Value × UInt32) :=
  layout.filterMap fun b =>
    match b.2 with
    | .sram addr => some (b.1, addr)
    | .ddr _ => none

/-- The alignment attribute of an alloc. -/
def allocAlign? : Value → Option Nat
  | .alloc _ _ alignment => alignment
  | _ => none

/-- The alignment an alloc asks for. -/
def allocAlignment (v : Value) : Nat := (allocAlign? v).getD SRAM_ALIGNMENT

/-- The allocs the pass binds to SRAM. -/
def sramAllocs (module : Module) : List Value :=
  (allocValues (moduleInsts module)).filter fun v => isSRAM (moduleInsts module) v

/-- What they ask for, as unbounded integers. -/
def sramRequest (v : Value) : Nat × Nat := (v.type.sizeInBytes, allocAlignment v)

/-- The whole buffer lies in SRAM. -/
def BufferInSram (b : Value × UInt32) : Prop :=
  SRAM_ADDR.toNat ≤ b.2.toNat ∧ b.2.toNat + b.1.type.sizeInBytes ≤ sramEnd

/-- **A sound SRAM layout.** -/
structure SramLayoutOk (layout : Layout) : Prop where
  inside : ∀ b ∈ sramBuffers layout, BufferInSram b
  aligned : ∀ b ∈ sramBuffers layout, allocAlignment b.1 ∣ b.2.toNat
  disjoint : (sramBuffers layout).Pairwise Apart

/-! ## SramAllocator -/

/-- The allocator of the pass with everything below `p` handed out. -/
structure Bump (a : SramAllocator) (p : Nat) : Prop where
  base : a.base = SRAM_ADDR
  size : a.size = SRAM_SIZE
  next : a.next.toNat = p
  lo : SRAM_ADDR.toNat ≤ p
  hi : p ≤ sramEnd

theorem Bump.init : Bump (.init SRAM_ADDR SRAM_SIZE) SRAM_ADDR.toNat :=
  ⟨rfl, rfl, rfl, Nat.le_refl _, by decide⟩

section Allocate

variable {a : SramAllocator} {p : Nat} {size alignment : UInt32}

/-- From inside SRAM the next multiple of any alignment is a 32-bit number. -/
theorem Bump.alignUp_lt (h : Bump a p) (hal : alignment ≠ 0) :
    alignUp p alignment.toNat < 4294967296 := by
  have hne : alignment.toNat ≠ 0 := fun hz => hal (UInt32.toNat_inj.mp hz)
  have hlo := h.lo
  have hhi := h.hi
  rw [SRAM_ADDR_toNat] at hlo
  rw [sramEnd_eq] at hhi
  rcases Nat.le_total p alignment.toNat with hle | hle
  · rw [alignUp_of_le (by omega) hle]
    exact alignment.toNat_lt
  · have := Lib.alignUp_lt (p := p) hne
    omega

theorem Bump.alignTo (h : Bump a p) (hal : alignment ≠ 0) :
    (alignTo a.next alignment).toNat = alignUp p alignment.toNat := by
  rw [Compiler.alignTo, h.next]
  exact toNat_ofNat_small (h.alignUp_lt hal)

/-- The 32-bit end of a request that would be placed at `q`. -/
def wrappedEnd (q size : Nat) : Nat := (q + size) % 4294967296

/-- **One request**: refused when its 32-bit end is past the end of SRAM,
otherwise placed at the next multiple of its alignment. -/
theorem Bump.allocate (h : Bump a p) (hal : alignment ≠ 0) :
    a.allocate size alignment
      = if sramEnd < wrappedEnd (alignUp p alignment.toNat) size.toNat then (0, a)
        else (Compiler.alignTo a.next alignment,
          { a with next := Compiler.alignTo a.next alignment + size }) := by
  have hend : (Compiler.alignTo a.next alignment + size).toNat
      = wrappedEnd (alignUp p alignment.toNat) size.toNat := by
    rw [UInt32.toNat_add, h.alignTo hal]
    rfl
  have hlimit : (a.base + a.size).toNat = sramEnd := by
    rw [h.base, h.size]
    rfl
  have hgt : Compiler.alignTo a.next alignment + size > a.base + a.size
      ↔ sramEnd < wrappedEnd (alignUp p alignment.toNat) size.toNat := by
    rw [gt_iff_lt, UInt32.lt_iff_toNat_lt, hend, hlimit]
  unfold SramAllocator.allocate
  simp only [hgt]

variable (size) in
/-- A request that fits is placed where unbounded arithmetic puts it. -/
theorem Bump.allocate_fits (h : Bump a p) (hal : alignment ≠ 0)
    (hfit : alignUp p alignment.toNat + size.toNat ≤ sramEnd) :
    (a.allocate size alignment).1.toNat = alignUp p alignment.toNat
      ∧ Bump (a.allocate size alignment).2
        (alignUp p alignment.toNat + size.toNat) := by
  have hne : alignment.toNat ≠ 0 := fun hz => hal (UInt32.toNat_inj.mp hz)
  have hle := le_alignUp (p := p) hne
  have hlo := h.lo
  have hend := sramEnd_eq
  have hnowrap : wrappedEnd (alignUp p alignment.toNat) size.toNat
      = alignUp p alignment.toNat + size.toNat := Nat.mod_eq_of_lt (by omega)
  rw [h.allocate hal, if_neg (by omega)]
  refine ⟨h.alignTo hal, h.base, h.size, ?_, by omega, hfit⟩
  rw [UInt32.toNat_add, h.alignTo hal]
  exact hnowrap

end Allocate

/-! ## The pass -/

/-- The SRAM addresses of a list of allocs, one after another. -/
def placeAll (golden : List (Value × UInt32)) :
    SramAllocator → List Value → List (Value × UInt32)
  | _, [] => []
  | a, v :: vs =>
      let r := sramAddrFor golden a v (allocAlign? v)
      (v, r.1) :: placeAll golden r.2 vs

theorem sramBuffers_append (l m : Layout) :
    sramBuffers (l ++ m) = sramBuffers l ++ sramBuffers m :=
  List.filterMap_append

theorem sramBuffers_cons_ddr (v : Value) (addr : UInt32) (l : Layout) :
    sramBuffers ((v, .ddr addr) :: l) = sramBuffers l := rfl

theorem sramBuffers_bindArgs (func : Nat) (args : List (Option MemRefType)) :
    ∀ (i : Nat) (cur : UInt32), sramBuffers (bindArgs func i args cur).1 = [] := by
  induction args with
  | nil => intro i cur; rfl
  | cons t args ih =>
      intro i cur
      cases t with
      | none => exact ih (i + 1) cur
      | some t => rw [bindArgs, sramBuffers_cons_ddr, ih]

theorem sramBuffers_bindFuncs {fs : List Func} :
    ∀ {func : Nat} {cur : UInt32} {r : Layout × UInt32},
      bindFuncs func fs cur = some r → sramBuffers r.1 = [] := by
  induction fs with
  | nil => intro func cur r h; cases h; rfl
  | cons f fs ih =>
      intro func cur r h
      rw [bindFuncs] at h
      split at h
      · cases h
      · obtain ⟨rest, hrest, rfl⟩ := Option.map_eq_some_iff.mp h
        rw [sramBuffers_append, sramBuffers_bindArgs, ih hrest]
        rfl

/-- One alloc: SRAM gets the address of `sramAddrFor`, which is not 0; DDR
leaves the allocator alone. -/
theorem bindAlloc_sram {insts : List Inst} {golden : List (Value × UInt32)}
    {st st' : AllocState} {v : Value} {alignment : Option Nat}
    (h : bindAlloc insts golden st v alignment = some st') :
    (isSRAM insts v = true
        ∧ (sramAddrFor golden st.sram v alignment).1 ≠ 0
        ∧ st'.sram = (sramAddrFor golden st.sram v alignment).2
        ∧ sramBuffers st'.layout = sramBuffers st.layout
          ++ [(v, (sramAddrFor golden st.sram v alignment).1)])
      ∨ (isSRAM insts v = false ∧ st'.sram = st.sram
        ∧ sramBuffers st'.layout = sramBuffers st.layout) := by
  rw [bindAlloc] at h
  cases hs : isSRAM insts v with
  | true =>
      rw [hs, if_pos rfl] at h
      refine .inl ⟨rfl, ?_⟩
      dsimp only at h
      split at h
      · cases h
      · rename_i hne
        cases h
        exact ⟨hne, rfl, sramBuffers_append _ _⟩
  | false =>
      rw [hs, if_neg Bool.false_ne_true] at h
      cases h
      refine .inr ⟨rfl, rfl, ?_⟩
      rw [sramBuffers_append]
      exact List.append_nil _

theorem bindAllocs_sram {all : List Inst} {golden : List (Value × UInt32)}
    {insts : List Inst} :
    ∀ {st st' : AllocState}, bindAllocs all golden insts st = some st' →
      sramBuffers st'.layout = sramBuffers st.layout
          ++ placeAll golden st.sram
            ((allocValues insts).filter fun v => isSRAM all v)
        ∧ ∀ b ∈ placeAll golden st.sram
          ((allocValues insts).filter fun v => isSRAM all v), b.2 ≠ 0 := by
  induction insts with
  | nil =>
      intro st st' h
      cases h
      exact ⟨(List.append_nil _).symm, fun b hb => by cases hb⟩
  | cons i is ih =>
      intro st st' h
      rw [bindAllocs] at h
      split at h
      · rename_i id t alignment hop
        obtain ⟨st₁, h₁, h⟩ := Option.bind_eq_some_iff.mp h
        obtain ⟨hlayout, hne⟩ := ih h
        rw [allocValues_cons_alloc hop]
        rcases bindAlloc_sram h₁ with ⟨hs, haddr, hsram, hb⟩ | ⟨hs, hsram, hb⟩
        · rw [hsram] at hlayout hne
          rw [List.filter_cons_of_pos (by simp [hs]), placeAll, hlayout, hb,
            List.append_assoc]
          refine ⟨rfl, fun b hmem => ?_⟩
          rcases List.mem_cons.mp hmem with rfl | hmem
          · exact haddr
          · exact hne b hmem
        · rw [hsram] at hlayout hne
          rw [List.filter_cons_of_neg (by simp [hs]), hlayout, hb]
          exact ⟨rfl, hne⟩
      · rename_i hop
        rw [allocValues_cons_other hop]
        exact ih h

/-- The golden addresses in force. -/
def goldenOf (option : LayoutOption) (module : Module) : List (Value × UInt32) :=
  if option = .goldenMirror then goldenLayout (moduleInsts module) else []

/-- **The SRAM addresses of the pass.** -/
theorem sramBuffers_eq {option : LayoutOption} {module : Module} {layout : Layout}
    (h : eclipseAllocate option module = some layout) :
    sramBuffers layout = placeAll (goldenOf option module)
        (.init SRAM_ADDR SRAM_SIZE) (sramAllocs module)
      ∧ ∀ b ∈ sramBuffers layout, b.2 ≠ 0 := by
  obtain ⟨⟨argLayout, cur⟩, hargs, h⟩ := Option.bind_eq_some_iff.mp h
  obtain ⟨st, hst, h⟩ := Option.bind_eq_some_iff.mp h
  cases h
  have hnone := sramBuffers_bindFuncs hargs
  obtain ⟨hall, hne⟩ := bindAllocs_sram hst
  dsimp only at hnone hall hne
  rw [hnone, List.nil_append] at hall
  rw [hall]
  exact ⟨rfl, hne⟩

/-! ## Bump layout -/

section Place

variable {vs : List Value} {a : SramAllocator} {p : Nat}

/-- The true numbers of an alloc survive the casts to `uint32_t`. -/
theorem sramRequest_toNat {v : Value} (hsize : v.type.sizeInBytes ≤ sramEnd)
    (hne : allocAlignment v ≠ 0) (hle : allocAlignment v ≤ sramEnd) :
    (UInt32.ofNat v.type.sizeInBytes).toNat = v.type.sizeInBytes
      ∧ (UInt32.ofNat (allocAlignment v)).toNat = allocAlignment v
      ∧ UInt32.ofNat (allocAlignment v) ≠ 0 := by
  rw [sramEnd_eq] at hsize hle
  have halign : (UInt32.ofNat (allocAlignment v)).toNat = allocAlignment v :=
    toNat_ofNat_small (by omega)
  refine ⟨toNat_ofNat_small (by omega), halign, fun hz => hne ?_⟩
  rw [← halign, hz]
  rfl

/-- Allocs that fit are placed as on unbounded integers. -/
theorem placeAll_of_fits (h : Bump a p)
    (hfit : BumpFits sramEnd p (vs.map sramRequest)) :
    (placeAll [] a vs).map (fun b => (b.2.toNat, b.1.type.sizeInBytes))
        = bumpPlaces p (vs.map sramRequest)
      ∧ ∀ b ∈ placeAll [] a vs, allocAlignment b.1 ∣ b.2.toNat := by
  induction vs generalizing a p with
  | nil => exact ⟨rfl, fun b hb => by cases hb⟩
  | cons v vs ih =>
      obtain ⟨hne, hle, hrest⟩ := hfit
      have hge : allocAlignment v ≤ alignUp p (allocAlignment v) := by
        have hlo := h.lo
        rw [SRAM_ADDR_toNat] at hlo
        exact Nat.le_of_dvd (by have := le_alignUp (p := p) hne; omega)
          (dvd_alignUp p _)
      obtain ⟨hsz, hal, hal0⟩ := sramRequest_toNat (v := v) (by omega) hne (by omega)
      have hspec := h.allocate_fits (UInt32.ofNat v.type.sizeInBytes) hal0
      rw [hal, hsz] at hspec
      obtain ⟨haddr, hbump⟩ := hspec hle
      obtain ⟨hplaces, haligned⟩ := ih hbump hrest
      refine ⟨List.cons_eq_cons.mpr ⟨Prod.ext haddr rfl, hplaces⟩, fun b hb => ?_⟩
      rcases List.mem_cons.mp hb with rfl | hb
      · exact haddr.symm ▸ dvd_alignUp p (allocAlignment v)
      · exact haligned b hb

/-- Allocs that are placed soundly fit. -/
theorem fits_of_placeAll (h : Bump a p)
    (hok : ∀ b ∈ placeAll [] a vs,
      b.2 ≠ 0 ∧ BufferInSram b ∧ allocAlignment b.1 ∣ b.2.toNat) :
    BumpFits sramEnd p (vs.map sramRequest) := by
  induction vs generalizing a p with
  | nil => trivial
  | cons v vs ih =>
      obtain ⟨hne0, ⟨-, hend⟩, hdvd⟩ := hok _ (List.mem_cons_self ..)
      have haddr0 : (a.allocate (UInt32.ofNat v.type.sizeInBytes)
          (UInt32.ofNat (allocAlignment v))).1.toNat ≠ 0 :=
        fun hz => hne0 (UInt32.toNat_inj.mp hz)
      have hle := Nat.le_of_dvd (Nat.pos_of_ne_zero haddr0) hdvd
      have hne : allocAlignment v ≠ 0 := by
        intro hz
        rw [hz] at hdvd
        exact haddr0 (Nat.zero_dvd.mp hdvd)
      replace hend : (a.allocate (UInt32.ofNat v.type.sizeInBytes)
        (UInt32.ofNat (allocAlignment v))).1.toNat + v.type.sizeInBytes ≤ sramEnd := hend
      replace hle : allocAlignment v ≤ (a.allocate (UInt32.ofNat v.type.sizeInBytes)
        (UInt32.ofNat (allocAlignment v))).1.toNat := hle
      obtain ⟨hsz, hal, hal0⟩ := sramRequest_toNat (v := v) (by omega) hne (by omega)
      -- the request was not refused, so it stands at the next multiple
      have hplace : (a.allocate (UInt32.ofNat v.type.sizeInBytes)
          (UInt32.ofNat (allocAlignment v))).1.toNat
          = alignUp p (allocAlignment v) := by
        rw [h.allocate hal0, hal] at haddr0 ⊢
        split_ifs at haddr0 ⊢ with hrefuse
        · exact absurd rfl haddr0
        · exact (h.alignTo hal0).trans (by rw [hal])
      have hfit : alignUp p (allocAlignment v) + v.type.sizeInBytes ≤ sramEnd := by
        rw [← hplace]
        exact hend
      have hspec := h.allocate_fits (UInt32.ofNat v.type.sizeInBytes) hal0
      rw [hal, hsz] at hspec
      exact ⟨hne, hfit, ih (hspec hfit).2 fun b hb => hok b (List.mem_cons_of_mem _ hb)⟩

end Place

/-- The condition on the allocs of a module: one after another, on unbounded
integers, they end inside SRAM. -/
def SramFits (module : Module) : Prop :=
  BumpFits sramEnd SRAM_ADDR.toNat ((sramAllocs module).map sramRequest)

instance (module : Module) : Decidable (SramFits module) :=
  BumpFits.decidable _ _ _

theorem sramLayoutOk_of_fits {module : Module} {layout : Layout}
    (halloc : eclipseAllocate .bump module = some layout) (h : SramFits module) :
    SramLayoutOk layout := by
  have hb : sramBuffers layout = placeAll [] (.init SRAM_ADDR SRAM_SIZE)
    (sramAllocs module) := (sramBuffers_eq halloc).1
  obtain ⟨hplaces, haligned⟩ := placeAll_of_fits Bump.init h
  rw [← hb] at hplaces haligned
  refine ⟨fun b hmem => ?_, haligned, ?_⟩
  · refine BumpFits.inside h (b.2.toNat, b.1.type.sizeInBytes) ?_
    rw [← hplaces]
    exact List.mem_map_of_mem hmem
  · have hord := bumpPlaces_ordered h
    rw [← hplaces, List.pairwise_map] at hord
    refine hord.imp fun hle c hc hc' => ?_
    unfold InBuffer at hc hc'
    dsimp only at hle
    omega

theorem bumpLayoutOk_iff {module : Module} {layout : Layout}
    (halloc : eclipseAllocate .bump module = some layout) :
    SramLayoutOk layout ↔ SramFits module := by
  refine ⟨fun h => fits_of_placeAll Bump.init ?_, sramLayoutOk_of_fits halloc⟩
  obtain ⟨hb, hne⟩ := sramBuffers_eq halloc
  intro b hmem
  have hb : sramBuffers layout = placeAll [] (.init SRAM_ADDR SRAM_SIZE)
    (sramAllocs module) := hb
  rw [← hb] at hmem
  exact ⟨hne b hmem, h.inside b hmem, h.aligned b hmem⟩

/-! ## Sequences of requests -/

/-- A request the allocator granted. -/
structure SramGrant where
  size : UInt32
  alignment : UInt32
  addr : UInt32
  deriving DecidableEq, Repr

/-- What the allocator grants of a sequence of requests `(size, alignment)`. -/
def SramAllocator.serve : SramAllocator → List (UInt32 × UInt32) → List SramGrant
  | _, [] => []
  | a, (size, alignment) :: reqs =>
      let r := a.allocate size alignment
      if r.1 = 0 then r.2.serve reqs
      else ⟨size, alignment, r.1⟩ :: r.2.serve reqs

/-- **Sound grants**: in SRAM, aligned, and no two share a byte. -/
structure GrantsOk (gs : List SramGrant) : Prop where
  inside : ∀ g ∈ gs, SRAM_ADDR.toNat ≤ g.addr.toNat
    ∧ g.addr.toNat + g.size.toNat ≤ sramEnd
  aligned : ∀ g ∈ gs, g.alignment.toNat ∣ g.addr.toNat
  disjoint : gs.Pairwise fun g k => ∀ b,
    (g.addr.toNat ≤ b ∧ b < g.addr.toNat + g.size.toNat) →
      ¬ (k.addr.toNat ≤ b ∧ b < k.addr.toNat + k.size.toNat)

/-- No request is granted because its end wrapped: served as on unbounded
integers, every request that does not fit has a 32-bit end past the end of
SRAM as well. -/
def NoWrappedGrant : Nat → List (UInt32 × UInt32) → Prop
  | _, [] => True
  | p, (size, alignment) :: reqs =>
      let q := alignUp p alignment.toNat
      if q + size.toNat ≤ sramEnd then NoWrappedGrant (q + size.toNat) reqs
      else sramEnd < wrappedEnd q size.toNat ∧ NoWrappedGrant p reqs

instance NoWrappedGrant.decidable :
    (p : Nat) → (reqs : List (UInt32 × UInt32)) → Decidable (NoWrappedGrant p reqs)
  | _, [] => isTrue trivial
  | p, (size, alignment) :: reqs =>
      have := NoWrappedGrant.decidable (alignUp p alignment.toNat + size.toNat) reqs
      have := NoWrappedGrant.decidable p reqs
      inferInstanceAs (Decidable
        (if alignUp p alignment.toNat + size.toNat ≤ sramEnd then
          NoWrappedGrant (alignUp p alignment.toNat + size.toNat) reqs
        else sramEnd < wrappedEnd (alignUp p alignment.toNat) size.toNat
          ∧ NoWrappedGrant p reqs))

section Serve

variable {a : SramAllocator} {p : Nat} {reqs : List (UInt32 × UInt32)}

/-- The grants of a wrap-free sequence are sound, and stand above `p`. -/
theorem serve_ok (h : Bump a p) (hal : ∀ r ∈ reqs, r.2 ≠ 0)
    (hw : NoWrappedGrant p reqs) :
    GrantsOk (a.serve reqs) ∧ ∀ g ∈ a.serve reqs, p ≤ g.addr.toNat := by
  induction reqs generalizing a p with
  | nil => exact ⟨⟨by simp [SramAllocator.serve], by simp [SramAllocator.serve],
      List.Pairwise.nil⟩, by simp [SramAllocator.serve]⟩
  | cons r reqs ih =>
      obtain ⟨size, al⟩ := r
      have hal0 : al ≠ 0 := hal _ (List.mem_cons_self ..)
      have hrest : ∀ r ∈ reqs, r.2 ≠ 0 := fun r hr => hal r (List.mem_cons_of_mem _ hr)
      have hne : al.toNat ≠ 0 := fun hz => hal0 (UInt32.toNat_inj.mp hz)
      have hle := le_alignUp (p := p) hne
      have hlo := h.lo
      rw [NoWrappedGrant] at hw
      rw [SramAllocator.serve]
      by_cases hfit : alignUp p al.toNat + size.toNat ≤ sramEnd
      · rw [if_pos hfit] at hw
        obtain ⟨haddr, hbump⟩ := h.allocate_fits _ hal0 hfit
        obtain ⟨hok, hge⟩ := ih hbump hrest hw
        have hnz : (a.allocate size al).1 ≠ 0 := by
          intro hz
          rw [hz, UInt32.toNat_zero] at haddr
          rw [SRAM_ADDR_toNat] at hlo
          omega
        simp only [if_neg hnz]
        refine ⟨⟨fun g hg => ?_, fun g hg => ?_, List.pairwise_cons.mpr
          ⟨fun g hg b hb hb' => ?_, hok.disjoint⟩⟩, fun g hg => ?_⟩
        · rcases List.mem_cons.mp hg with rfl | hg
          · dsimp only
            exact ⟨by omega, by omega⟩
          · exact hok.inside g hg
        · rcases List.mem_cons.mp hg with rfl | hg
          · show _ ∣ (a.allocate size al).1.toNat
            rw [haddr]
            exact dvd_alignUp _ _
          · exact hok.aligned g hg
        · have hafter := hge g hg
          dsimp only at hb
          omega
        · rcases List.mem_cons.mp hg with rfl | hg
          · show p ≤ (a.allocate size al).1.toNat
            omega
          · have hafter := hge g hg
            omega
      · rw [if_neg hfit] at hw
        -- a refused request leaves the allocator as it was
        rw [h.allocate hal0, if_pos hw.1]
        exact ih h hrest hw.2

/-- Sound grants never come from a wrapped end. -/
theorem noWrappedGrant_of_ok (h : Bump a p) (hal : ∀ r ∈ reqs, r.2 ≠ 0)
    (hok : GrantsOk (a.serve reqs)) : NoWrappedGrant p reqs := by
  induction reqs generalizing a p with
  | nil => trivial
  | cons r reqs ih =>
      obtain ⟨size, al⟩ := r
      have hal0 : al ≠ 0 := hal _ (List.mem_cons_self ..)
      have hrest : ∀ r ∈ reqs, r.2 ≠ 0 := fun r hr => hal r (List.mem_cons_of_mem _ hr)
      have hne : al.toNat ≠ 0 := fun hz => hal0 (UInt32.toNat_inj.mp hz)
      have hle := le_alignUp (p := p) hne
      have hlo := h.lo
      rw [SRAM_ADDR_toNat] at hlo
      have htail : ∀ {g : SramGrant} {gs : List SramGrant},
          GrantsOk (g :: gs) → GrantsOk gs := fun hg =>
        ⟨fun k hk => hg.inside k (List.mem_cons_of_mem _ hk),
          fun k hk => hg.aligned k (List.mem_cons_of_mem _ hk),
          (List.pairwise_cons.mp hg.disjoint).2⟩
      rw [NoWrappedGrant]
      rw [SramAllocator.serve] at hok
      by_cases hfit : alignUp p al.toNat + size.toNat ≤ sramEnd
      · rw [if_pos hfit]
        obtain ⟨haddr, hbump⟩ := h.allocate_fits _ hal0 hfit
        have hnz : (a.allocate size al).1 ≠ 0 := by
          intro hz
          rw [hz, UInt32.toNat_zero] at haddr
          omega
        simp only [if_neg hnz] at hok
        exact ih hbump hrest (htail hok)
      · rw [if_neg hfit]
        rw [h.allocate hal0] at hok
        by_cases hrefuse : sramEnd < wrappedEnd (alignUp p al.toNat) size.toNat
        · rw [if_pos hrefuse] at hok
          exact ⟨hrefuse, ih h hrest hok⟩
        · rw [if_neg hrefuse] at hok
          have haddr := h.alignTo hal0
          have hnz : Compiler.alignTo a.next al ≠ 0 := by
            intro hz
            rw [hz, UInt32.toNat_zero] at haddr
            omega
          simp only [if_neg hnz] at hok
          have hin := (hok.inside _ (List.mem_cons_self ..)).2
          dsimp only at hin
          omega

end Serve

/-- **When bump allocation is sound.** For a module: exactly when its SRAM
allocs, placed one after another on unbounded integers, end inside SRAM. For
the allocator on any sequence of requests: exactly when no request is granted
because its end wrapped. -/
theorem bumpAllocation_sound_iff {module : Module} {layout : Layout}
    (halloc : eclipseAllocate .bump module = some layout)
    {reqs : List (UInt32 × UInt32)} (hal : ∀ r ∈ reqs, r.2 ≠ 0) :
    (SramLayoutOk layout ↔ SramFits module)
      ∧ (GrantsOk ((SramAllocator.init SRAM_ADDR SRAM_SIZE).serve reqs)
        ↔ NoWrappedGrant SRAM_ADDR.toNat reqs) :=
  ⟨bumpLayoutOk_iff halloc, noWrappedGrant_of_ok Bump.init hal,
    fun h => (serve_ok Bump.init hal h).1⟩

theorem bumpAllocation_sound_addModule : ∃ layout,
    eclipseAllocate .bump (addModule 4 8) = some layout
      ∧ SramLayoutOk layout
      ∧ GrantsOk ((SramAllocator.init SRAM_ADDR SRAM_SIZE).serve
        [(100, 32), (0x80000, 32), (64, 64)]) := by
  have hrun : (eclipseAllocate .bump (addModule 4 8)).isSome = true := by
    decide +kernel
  obtain ⟨layout, halloc⟩ := Option.isSome_iff_exists.mp hrun
  obtain ⟨hmodule, hserve⟩ := bumpAllocation_sound_iff halloc
    (show ∀ r ∈ [(100, 32), (0x80000, 32), (64, 64)], r.2 ≠ (0 : UInt32) by simp)
  exact ⟨layout, halloc, hmodule.mpr (by decide +kernel),
    hserve.mpr (by decide +kernel)⟩

/-- One SRAM alloc of `rows`x`cols` and nothing else. -/
def allocModule (rows cols : Nat) : Module :=
  convertedModule [] [.define (.alloc ⟨0, .user 0⟩ (f16Type rows cols) none), .ret []]

/-- **A 32768x61440 buffer is accepted**: its end is exactly `2 ^ 32`, which
the bound check reads as 0. -/
theorem bumpAllocation_wraps : ∃ layout,
    eclipseAllocate .bump (allocModule 32768 61440) = some layout
      ∧ ¬ SramLayoutOk layout := by
  have hrun : (eclipseAllocate .bump (allocModule 32768 61440)).isSome = true := by
    decide +kernel
  obtain ⟨layout, halloc⟩ := Option.isSome_iff_exists.mp hrun
  refine ⟨layout, halloc, fun h => ?_⟩
  exact absurd ((bumpLayoutOk_iff halloc).mp h) (by decide +kernel)

end EclipseNpu.Compiler

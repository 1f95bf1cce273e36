import EclipseNpu.Compiler.EmitComplete
import EclipseNpu.Runtime.Stream
import Mathlib.Data.List.Pairwise

/-!
# Compiler — DdrLayout

Where `eclipse-allocate` puts the DDR buffers. Arguments and DDR allocs
alike get the next multiple of 0x10000, whatever their size, and the
counter is a `uint32_t`. `ddrBuffers_eq` is that fact; `ddrLayoutOk_iff`
says for which sizes it makes a layout without collisions, and with it
whether the input files of `eclipse-run` stay apart.
-/

namespace EclipseNpu.Compiler

open EclipseNpu.Lib EclipseNpu.Runtime

/-! ## What the layout should be -/

/-- The buffers bound to DDR, with their addresses, in binding order. -/
def ddrBuffers (layout : Layout) : List (Value × UInt32) :=
  layout.filterMap fun b =>
    match b.2 with
    | .ddr addr => some (b.1, addr)
    | .sram _ => none

/-- `a` is a byte of the buffer. -/
def InBuffer (b : Value × UInt32) (a : Nat) : Prop :=
  b.2.toNat ≤ a ∧ a < b.2.toNat + b.1.type.sizeInBytes

/-- The buffers share no byte. -/
def Apart (b c : Value × UInt32) : Prop := ∀ a, InBuffer b a → ¬ InBuffer c a

instance : Std.Symm Apart := ⟨fun _ _ h a hc hb => h a hb hc⟩

/-- The memref arguments of function number `func`. -/
def funcArgs (func : Nat) : Nat → List (Option MemRefType) → List Value
  | _, [] => []
  | i, none :: args => funcArgs func (i + 1) args
  | i, some t :: args => .blockArg func i t :: funcArgs func (i + 1) args

/-- The memref arguments of a module, in walk order. -/
def argValues : Nat → List Func → List Value
  | _, [] => []
  | func, f :: fs => funcArgs func 0 f.args ++ argValues (func + 1) fs

/-- The allocs of a list of operations. -/
def allocValues (insts : List Inst) : List Value :=
  insts.filterMap fun i =>
    match i.op with
    | .define (.alloc id t alignment) => some (.alloc id t alignment)
    | _ => none

/-- The allocs the pass binds to DDR. -/
def ddrAllocs (module : Module) : List Value :=
  (allocValues (moduleInsts module)).filter fun v =>
    !isSRAM (moduleInsts module) v

/-- Everything that gets a DDR address: the arguments, then the allocs. -/
def ddrValues (module : Module) : List Value :=
  argValues 0 module ++ ddrAllocs module

/-- **A collision-free DDR layout**: the buffers are disjoint and lie above
the command queue region and inside DDR, and input files of the argument
sizes end up each in its own argument. Arguments are bound first, so file
`k` belongs to buffer `k`. -/
structure DdrLayoutOk (module : Module) (layout : Layout) : Prop where
  disjoint : (ddrBuffers layout).Pairwise Apart
  inside : ∀ b ∈ ddrBuffers layout, ∀ a, InBuffer b a →
    ddrStart.toNat ≤ a ∧ a < ddrEnd
  inputs : ∀ (files : List (List UInt8)) (s : CModel),
    files.map List.length
      = (argValues 0 module).map (fun v => v.type.sizeInBytes) →
    ∃ s', writeInputs files s = .ok s' ∧
      ∀ (k : Nat) (f : List UInt8) (b : Value × UInt32), files[k]? = some f →
        (ddrBuffers layout)[k]? = some b →
        HoldsBytes s'.ddrByte b.2.toNat f

/-! ## The addresses -/

/-- Buffer `j`, counted from `cur`. -/
def slotAddr (cur : UInt32) (j : Nat) : UInt32 := cur + ddrStride * UInt32.ofNat j

/-- The values with the addresses the counter gives them. -/
def numbered (cur : UInt32) (vs : List Value) : List (Value × UInt32) :=
  vs.mapIdx fun j v => (v, slotAddr cur j)

theorem slotAddr_zero (cur : UInt32) : slotAddr cur 0 = cur := by
  simp [slotAddr]

theorem slotAddr_add (cur : UInt32) (m n : Nat) :
    slotAddr (slotAddr cur m) n = slotAddr cur (m + n) := by
  simp only [slotAddr, UInt32.ofNat_add, UInt32.mul_add, UInt32.add_assoc]

theorem slotAddr_succ (cur : UInt32) (n : Nat) :
    slotAddr (cur + ddrStride) n = slotAddr cur (n + 1) := by
  rw [Nat.add_comm, ← slotAddr_add]
  simp [slotAddr]

theorem numbered_cons (cur : UInt32) (v : Value) (vs : List Value) :
    numbered cur (v :: vs) = (v, cur) :: numbered (cur + ddrStride) vs := by
  simp only [numbered, List.mapIdx_cons, slotAddr_zero, slotAddr_succ]

theorem numbered_append (cur : UInt32) (vs ws : List Value) :
    numbered cur (vs ++ ws)
      = numbered cur vs ++ numbered (slotAddr cur vs.length) ws := by
  simp only [numbered, List.mapIdx_append, slotAddr_add]
  congr 1
  refine List.mapIdx_eq_mapIdx_iff.mpr fun i hi => ?_
  rw [Nat.add_comm]

theorem ddrBuffers_append (l m : Layout) :
    ddrBuffers (l ++ m) = ddrBuffers l ++ ddrBuffers m :=
  List.filterMap_append

theorem ddrBuffers_cons (v : Value) (addr : UInt32) (l : Layout) :
    ddrBuffers ((v, .ddr addr) :: l) = (v, addr) :: ddrBuffers l := rfl

theorem bindArgs_eq (func : Nat) (args : List (Option MemRefType)) :
    ∀ (i : Nat) (cur : UInt32),
      ddrBuffers (bindArgs func i args cur).1 = numbered cur (funcArgs func i args)
        ∧ (bindArgs func i args cur).2
          = slotAddr cur (funcArgs func i args).length := by
  induction args with
  | nil => intro i cur; exact ⟨rfl, (slotAddr_zero cur).symm⟩
  | cons a args ih =>
      intro i cur
      cases a with
      | none => exact ih (i + 1) cur
      | some t =>
          obtain ⟨hb, hc⟩ := ih (i + 1) (cur + ddrStride)
          rw [funcArgs, numbered_cons, List.length_cons, ← hb, ← slotAddr_succ,
            ← hc, bindArgs]
          exact ⟨ddrBuffers_cons .., rfl⟩

theorem bindFuncs_eq {fs : List Func} :
    ∀ {func : Nat} {cur : UInt32} {r : Layout × UInt32},
      bindFuncs func fs cur = some r →
      ddrBuffers r.1 = numbered cur (argValues func fs)
        ∧ r.2 = slotAddr cur (argValues func fs).length := by
  induction fs with
  | nil => intro func cur r h; cases h; exact ⟨rfl, (slotAddr_zero cur).symm⟩
  | cons f fs ih =>
      intro func cur r h
      obtain ⟨hb, hc⟩ := bindArgs_eq func f.args 0 cur
      rw [bindFuncs] at h
      split at h
      · cases h
      · obtain ⟨rest, hrest, rfl⟩ := Option.map_eq_some_iff.mp h
        obtain ⟨hb', hc'⟩ := ih hrest
        rw [hc] at hb' hc'
        rw [argValues, ddrBuffers_append, numbered_append, hb, hb',
          List.length_append, ← slotAddr_add]
        exact ⟨rfl, hc'⟩

/-- One alloc: DDR gets the next slot, SRAM leaves the counter alone. -/
theorem bindAlloc_eq {insts : List Inst} {golden : List (Value × UInt32)}
    {st st' : AllocState} {v : Value} {alignment : Option Nat}
    (h : bindAlloc insts golden st v alignment = some st') :
    (isSRAM insts v = true ∧ ddrBuffers st'.layout = ddrBuffers st.layout
        ∧ st'.curDdrAddr = st.curDdrAddr)
      ∨ (isSRAM insts v = false
        ∧ ddrBuffers st'.layout = ddrBuffers st.layout ++ [(v, st.curDdrAddr)]
        ∧ st'.curDdrAddr = st.curDdrAddr + ddrStride) := by
  rw [bindAlloc] at h
  cases hs : isSRAM insts v with
  | true =>
      rw [hs, if_pos rfl] at h
      refine .inl ⟨rfl, ?_⟩
      dsimp only at h
      split at h
      · cases h
      · cases h
        exact ⟨by rw [ddrBuffers_append]; exact List.append_nil _, rfl⟩
  | false =>
      rw [hs, if_neg Bool.false_ne_true] at h
      cases h
      exact .inr ⟨rfl, ddrBuffers_append _ _, rfl⟩

theorem allocValues_cons_alloc {i : Inst} {is : List Inst} {id : OpId}
    {t : MemRefType} {alignment : Option Nat}
    (h : i.op = .define (.alloc id t alignment)) :
    allocValues (i :: is) = .alloc id t alignment :: allocValues is := by
  simp [allocValues, h]

theorem allocValues_cons_other {i : Inst} {is : List Inst}
    (h : ∀ id t alignment, i.op = .define (.alloc id t alignment) → False) :
    allocValues (i :: is) = allocValues is := by
  rw [allocValues, List.filterMap_cons]
  split
  · rfl
  · rename_i hsome
    split at hsome
    · exact absurd ‹_› (h _ _ _)
    · cases hsome

theorem bindAllocs_eq {all : List Inst} {golden : List (Value × UInt32)}
    {insts : List Inst} :
    ∀ {st st' : AllocState}, bindAllocs all golden insts st = some st' →
      ddrBuffers st'.layout = ddrBuffers st.layout
        ++ numbered st.curDdrAddr
          ((allocValues insts).filter fun v => !isSRAM all v) := by
  induction insts with
  | nil => intro st st' h; cases h; exact (List.append_nil _).symm
  | cons i is ih =>
      intro st st' h
      rw [bindAllocs] at h
      split at h
      · rename_i id t alignment hop
        obtain ⟨st₁, h₁, h⟩ := Option.bind_eq_some_iff.mp h
        rw [allocValues_cons_alloc hop, ih h]
        rcases bindAlloc_eq h₁ with ⟨hs, hb, hc⟩ | ⟨hs, hb, hc⟩
        · rw [List.filter_cons_of_neg (by simp [hs]), hb, hc]
        · rw [List.filter_cons_of_pos (by simp [hs]), numbered_cons, hb, hc,
            List.append_assoc]
          rfl
      · rename_i hop
        rw [allocValues_cons_other hop]
        exact ih h

/-- **The DDR addresses**: the `j`-th buffer stands at
`DDR_ADDR + 0x10000 * (j + 1)`, in 32 bits. -/
theorem ddrBuffers_eq {option : LayoutOption} {module : Module}
    {layout : Layout} (h : eclipseAllocate option module = some layout) :
    ddrBuffers layout = numbered ddrStart (ddrValues module) := by
  obtain ⟨⟨argLayout, cur⟩, hargs, h⟩ := Option.bind_eq_some_iff.mp h
  obtain ⟨st, hst, h⟩ := Option.bind_eq_some_iff.mp h
  cases h
  obtain ⟨hb, hc⟩ := bindFuncs_eq hargs
  have hall := bindAllocs_eq hst
  dsimp only at hb hc hall
  rw [hall, hb, hc, ddrValues, numbered_append]
  rfl

/-! ## Which sizes fit -/

/-- The sizes of the DDR buffers, in binding order. -/
def ddrSizes (module : Module) : List Nat :=
  (ddrValues module).map fun v => v.type.sizeInBytes

/-- The 0x10000-byte slot of buffer `j`: the counter has 16 slot bits. -/
def slotOf (j : Nat) : Nat := j % 65536

/-- **The condition on the sizes**: no argument beyond the last slot, every
nonempty buffer ends inside DDR, and reaches at most to the slot of every
nonempty buffer above it. -/
structure SizesFit (module : Module) : Prop where
  args : (argValues 0 module).length ≤ 32767
  inDdr : ∀ j size, (ddrSizes module)[j]? = some size → size ≠ 0 →
    0x10000 * (slotOf j + 1) + size ≤ 0x80000000
  gaps : ∀ i j sizeI sizeJ, (ddrSizes module)[i]? = some sizeI →
    (ddrSizes module)[j]? = some sizeJ → i ≠ j → sizeI ≠ 0 → sizeJ ≠ 0 →
    slotOf i ≤ slotOf j → sizeI ≤ 0x10000 * (slotOf j - slotOf i)

theorem toNat_slotAddr (j : Nat) :
    (slotAddr ddrStart j).toNat
      = (0x40010000 + 0x10000 * slotOf j) % 4294967296 := by
  rw [slotAddr, UInt32.toNat_add, UInt32.toNat_mul, UInt32.toNat_ofNat',
    show ddrStart.toNat = 0x40010000 from rfl,
    show ddrStride.toNat = 0x10000 from rfl, slotOf]
  omega

theorem numbered_get {c : UInt32} {vs : List Value} {j : Nat}
    {b : Value × UInt32} :
    (numbered c vs)[j]? = some b ↔
      ∃ v, vs[j]? = some v ∧ b = (v, slotAddr c j) := by
  rw [numbered, List.getElem?_mapIdx, Option.map_eq_some_iff]
  exact ⟨fun ⟨v, hv, h⟩ => ⟨v, hv, h.symm⟩, fun ⟨v, hv, h⟩ => ⟨v, hv, h.symm⟩⟩

theorem ddrSizes_get {module : Module} {j size : Nat} :
    (ddrSizes module)[j]? = some size ↔
      ∃ v, (ddrValues module)[j]? = some v ∧ v.type.sizeInBytes = size := by
  rw [ddrSizes, List.getElem?_map, Option.map_eq_some_iff]

/-- The slot of a nonempty buffer that ends inside DDR. -/
theorem SizesFit.addr {module : Module} (h : SizesFit module) {j : Nat}
    {v : Value} (hv : (ddrValues module)[j]? = some v)
    (hne : v.type.sizeInBytes ≠ 0) :
    (slotAddr ddrStart j).toNat = 0x40010000 + 0x10000 * slotOf j
      ∧ 0x10000 * (slotOf j + 1) + v.type.sizeInBytes ≤ 0x80000000 := by
  have hin := h.inDdr j _ (ddrSizes_get.mpr ⟨v, hv, rfl⟩) hne
  rw [toNat_slotAddr]
  exact ⟨Nat.mod_eq_of_lt (by omega), hin⟩

/-- Two different buffers that fit share no byte. -/
theorem SizesFit.apart {module : Module} (h : SizesFit module) {i j : Nat}
    {v w : Value} (hv : (ddrValues module)[i]? = some v)
    (hw : (ddrValues module)[j]? = some w) (hij : i ≠ j) {a : Nat}
    (ha : InBuffer (v, slotAddr ddrStart i) a)
    (hb : InBuffer (w, slotAddr ddrStart j) a) : False := by
  unfold InBuffer at ha hb
  dsimp only at ha hb
  have hnv : v.type.sizeInBytes ≠ 0 := by omega
  have hnw : w.type.sizeInBytes ≠ 0 := by omega
  obtain ⟨hai, -⟩ := h.addr hv hnv
  obtain ⟨haj, -⟩ := h.addr hw hnw
  have hsv := ddrSizes_get.mpr ⟨v, hv, rfl⟩
  have hsw := ddrSizes_get.mpr ⟨w, hw, rfl⟩
  rcases Nat.le_total (slotOf i) (slotOf j) with hle | hle
  · have := h.gaps i j _ _ hsv hsw hij hnv hnw hle
    omega
  · have := h.gaps j i _ _ hsw hsv hij.symm hnw hnv hle
    omega

/-! ## The input files -/

theorem HoldsBytes.storeDdr {s : CModel} {p q : Nat} {bs cs : List UInt8}
    (h : HoldsBytes s.ddrByte p bs)
    (hd : ∀ a, p ≤ a → a < p + bs.length → a < q ∨ q + cs.length ≤ a) :
    HoldsBytes (s.storeDdr q cs).ddrByte p bs := by
  intro k hk
  rw [← h k hk]
  exact storeDdr_out (hd _ (by omega) (by omega))

/-- `eclipse-run` numbers its files as the pass numbers the arguments. -/
theorem inputAddr_eq (i : Nat) :
    DDR_ADDR + 0x10000 * UInt32.ofNat (i + 1) = slotAddr ddrStart i := by
  rw [slotAddr, UInt32.ofNat_add, UInt32.mul_add, UInt32.add_comm (0x10000 * _),
    ← UInt32.add_assoc]
  rfl

/-- Files that fit their slots end up each in its own. -/
theorem writeInputs_holds (files : List (List UInt8)) {s : CModel}
    (hlen : files.length ≤ 32767)
    (hin : ∀ (i : Nat) (f : List UInt8), files[i]? = some f → f ≠ [] →
      0x10000 * (i + 1) + f.length ≤ 0x80000000)
    (hgap : ∀ (i j : Nat) (f g : List UInt8), files[i]? = some f →
      files[j]? = some g → i < j → f ≠ [] → g ≠ [] →
      f.length ≤ 0x10000 * (j - i)) :
    ∃ s', writeInputs files s = .ok s' ∧
      ∀ (k : Nat) (f : List UInt8), files[k]? = some f →
        HoldsBytes s'.ddrByte (slotAddr ddrStart k).toNat f := by
  have haddr : ∀ i, i < 32767 →
      (slotAddr ddrStart i).toNat = 0x40010000 + 0x10000 * i := by
    intro i hi
    rw [toNat_slotAddr, slotOf]
    omega
  -- after `i` files, the first `i` slots hold theirs
  obtain ⟨s', hs', hall⟩ := forLoop_spec (n := files.length) (s := s)
    (f := fun i s => writeDDR (DDR_ADDR + 0x10000 * UInt32.ofNat (i + 1))
      (files.getD i []) s)
    (fun i t => ∀ (k : Nat) (f : List UInt8), k < i → files[k]? = some f →
      HoldsBytes t.ddrByte (slotAddr ddrStart k).toNat f)
    (fun k f hk => by omega) (fun i hi t ht => by
      obtain ⟨f, hf⟩ : ∃ f, files[i]? = some f :=
        ⟨files[i], List.getElem?_eq_getElem hi⟩
      have hget : files.getD i [] = f := by
        rw [List.getD_eq_getElem?_getD, hf, Option.getD_some]
      have hai := haddr i (by omega)
      have hfit : f.length = 0 ∨ 0x10000 * (i + 1) + f.length ≤ 0x80000000 := by
        by_cases hne : f = []
        · exact .inl (by rw [hne, List.length_nil])
        · exact .inr (hin i f hf hne)
      refine ⟨t.storeDdr (slotAddr ddrStart i).toNat f, ?_, fun k g hk hg => ?_⟩
      · show writeDDR (DDR_ADDR + 0x10000 * UInt32.ofNat (i + 1))
          (files.getD i []) t = _
        rw [inputAddr_eq, hget]
        refine writeDDR_ok_iff.mpr ⟨⟨by omega, ?_, ?_⟩, rfl⟩
        · rw [ddrEnd_eq]; omega
        · rw [ddrEnd_eq]; omega
      · rcases Nat.lt_succ_iff_lt_or_eq.mp hk with hlt | rfl
        · have hak := haddr k (by omega)
          refine HoldsBytes.storeDdr (ht k g hlt hg) fun a hlo hhi => ?_
          rcases Nat.eq_zero_or_pos f.length with hz | hpos
          · omega
          · have hfne : f ≠ [] := List.length_pos_iff.mp hpos
            have hgne : g ≠ [] := List.length_pos_iff.mp (by omega)
            have := hgap k i g f hg hf hlt hgne hfne
            omega
        · rw [hf] at hg
          cases hg
          exact storeDdr_holds t _ _)
  exact ⟨s', hs', fun k f hf =>
    hall k f (List.getElem?_eq_some_iff.mp hf).1 hf⟩

/-! ## When the layout is collision-free -/

/-- The arguments are the first DDR values. -/
theorem ddrValues_arg {module : Module} {k : Nat} {v : Value}
    (h : (argValues 0 module)[k]? = some v) :
    (ddrValues module)[k]? = some v := by
  have hk := (List.getElem?_eq_some_iff.mp h).1
  rw [ddrValues, List.getElem?_append_left hk, h]

/-- File `k` has the size of argument `k`. -/
theorem file_size {module : Module} {files : List (List UInt8)}
    (hsize : files.map List.length
      = (argValues 0 module).map fun v => v.type.sizeInBytes)
    {k : Nat} {f : List UInt8} (hf : files[k]? = some f) :
    k < (argValues 0 module).length
      ∧ (ddrSizes module)[k]? = some f.length := by
  have hget := congrArg (fun l => l[k]?) hsize
  simp only [List.getElem?_map, hf, Option.map_some] at hget
  obtain ⟨v, hv, hlen⟩ := Option.map_eq_some_iff.mp hget.symm
  exact ⟨(List.getElem?_eq_some_iff.mp hv).1,
    ddrSizes_get.mpr ⟨v, ddrValues_arg hv, hlen⟩⟩

theorem ddrLayoutOk_of_sizesFit {module : Module} {layout : Layout}
    (hb : ddrBuffers layout = numbered ddrStart (ddrValues module))
    (h : SizesFit module) : DdrLayoutOk module layout := by
  refine ⟨?_, fun b hmem a ha => ?_, fun files s hsize => ?_⟩
  · rw [hb, List.pairwise_iff_getElem]
    intro i j hi hj hij a hai haj
    obtain ⟨v, hv, hbi⟩ := numbered_get.mp (List.getElem?_eq_getElem hi)
    obtain ⟨w, hw, hbj⟩ := numbered_get.mp (List.getElem?_eq_getElem hj)
    rw [hbi] at hai
    rw [hbj] at haj
    exact h.apart hv hw (by omega) hai haj
  · rw [hb] at hmem
    obtain ⟨j, hj⟩ := List.mem_iff_getElem?.mp hmem
    obtain ⟨v, hv, rfl⟩ := numbered_get.mp hj
    unfold InBuffer at ha
    dsimp only at ha
    obtain ⟨haddr, hin⟩ := h.addr hv (by omega)
    rw [show ddrStart.toNat = 0x40010000 from rfl, ddrEnd_eq]
    omega
  · have hfiles : files.length = (argValues 0 module).length := by
      simpa using congrArg List.length hsize
    have hargs := h.args
    obtain ⟨s', hs', hholds⟩ := writeInputs_holds files (s := s)
      (by omega) (fun i f hf hne => by
        obtain ⟨hi, hsz⟩ := file_size hsize hf
        have := h.inDdr i _ hsz (fun hz => hne (List.length_eq_zero_iff.mp hz))
        unfold slotOf at this
        omega) (fun i j f g hf hg hij hfne hgne => by
        obtain ⟨hi, hszf⟩ := file_size hsize hf
        obtain ⟨hj, hszg⟩ := file_size hsize hg
        have := h.gaps i j _ _ hszf hszg (by omega)
          (fun hz => hfne (List.length_eq_zero_iff.mp hz))
          (fun hz => hgne (List.length_eq_zero_iff.mp hz))
          (by unfold slotOf; omega)
        unfold slotOf at this
        omega)
    refine ⟨s', hs', fun k f b hf hbk => ?_⟩
    rw [hb] at hbk
    obtain ⟨v, -, rfl⟩ := numbered_get.mp hbk
    exact hholds k f hf

/-- A nonempty buffer inside DDR: its address did not wrap. -/
theorem DdrLayoutOk.bound {module : Module} {layout : Layout}
    (hb : ddrBuffers layout = numbered ddrStart (ddrValues module))
    (h : DdrLayoutOk module layout) {j : Nat} {v : Value}
    (hv : (ddrValues module)[j]? = some v) (hne : v.type.sizeInBytes ≠ 0) :
    (slotAddr ddrStart j).toNat = 0x40010000 + 0x10000 * slotOf j
      ∧ 0x10000 * (slotOf j + 1) + v.type.sizeInBytes ≤ 0x80000000 := by
  have hmem : (v, slotAddr ddrStart j) ∈ ddrBuffers layout := by
    rw [hb]
    exact List.mem_of_getElem? (numbered_get.mpr ⟨v, hv, rfl⟩)
  have haddr := toNat_slotAddr j
  have hfirst := h.inside _ hmem (slotAddr ddrStart j).toNat
    ⟨Nat.le_refl _, by dsimp only; omega⟩
  have hlast := h.inside _ hmem
    ((slotAddr ddrStart j).toNat + v.type.sizeInBytes - 1)
    ⟨by dsimp only; omega, by dsimp only; omega⟩
  rw [show ddrStart.toNat = 0x40010000 from rfl, ddrEnd_eq] at hfirst hlast
  have : slotOf j < 65536 := Nat.mod_lt _ (by decide)
  omega

theorem DdrLayoutOk.apart {module : Module} {layout : Layout}
    (hb : ddrBuffers layout = numbered ddrStart (ddrValues module))
    (h : DdrLayoutOk module layout) {i j : Nat} {v w : Value}
    (hv : (ddrValues module)[i]? = some v)
    (hw : (ddrValues module)[j]? = some w) (hij : i ≠ j) {a : Nat}
    (ha : InBuffer (v, slotAddr ddrStart i) a) :
    ¬ InBuffer (w, slotAddr ddrStart j) a := by
  have hpair := h.disjoint
  rw [hb] at hpair
  obtain ⟨hi, hgi⟩ := List.getElem?_eq_some_iff.mp
    (numbered_get (c := ddrStart).mpr ⟨v, hv, rfl⟩)
  obtain ⟨hj, hgj⟩ := List.getElem?_eq_some_iff.mp
    (numbered_get (c := ddrStart).mpr ⟨w, hw, rfl⟩)
  rcases Nat.lt_or_gt_of_ne hij with hlt | hgt
  · have := List.pairwise_iff_getElem.mp hpair i j hi hj hlt a
    rw [hgi, hgj] at this
    exact this ha
  · have := List.pairwise_iff_getElem.mp hpair j i hj hi hgt a
    rw [hgi, hgj] at this
    exact fun hwa => this hwa ha

/-- Every argument address is accepted by `writeDDR`, empty ones too. -/
theorem DdrLayoutOk.args {module : Module} {layout : Layout}
    (h : DdrLayoutOk module layout) : (argValues 0 module).length ≤ 32767 := by
  by_contra hargs
  obtain ⟨s', hs', -⟩ := h.inputs
    ((argValues 0 module).map fun v => List.replicate v.type.sizeInBytes 0)
    (fun _ => 0) (by simp [Function.comp_def])
  obtain ⟨t, ht⟩ := forLoop_prefix (m := 32768) hs'
    (by rw [List.length_map]; omega)
  rw [forLoop_succ] at ht
  obtain ⟨u, -, hu⟩ := bind_ok ht
  rw [inputAddr_eq] at hu
  obtain ⟨⟨-, hhi, -⟩, -⟩ := writeDDR_ok_iff.mp hu
  exact absurd hhi (by decide)

/-- **When the DDR layout is collision-free**: exactly when the sizes fit
the 0x10000-byte slots, up to gaps left by empty buffers. -/
theorem ddrLayoutOk_iff {option : LayoutOption} {module : Module}
    {layout : Layout} (halloc : eclipseAllocate option module = some layout) :
    DdrLayoutOk module layout ↔ SizesFit module := by
  have hb := ddrBuffers_eq halloc
  refine ⟨fun h => ⟨h.args, fun j size hj hne => ?_,
    fun i j sizeI sizeJ hi hj hij hneI hneJ hle => ?_⟩,
    ddrLayoutOk_of_sizesFit hb⟩
  · obtain ⟨v, hv, rfl⟩ := ddrSizes_get.mp hj
    exact (h.bound hb hv hne).2
  · obtain ⟨v, hv, rfl⟩ := ddrSizes_get.mp hi
    obtain ⟨w, hw, rfl⟩ := ddrSizes_get.mp hj
    obtain ⟨hav, -⟩ := h.bound hb hv hneI
    obtain ⟨haw, -⟩ := h.bound hb hw hneJ
    -- otherwise the first byte of the upper buffer lies in the lower one
    by_contra hlt
    refine h.apart hb hv hw hij (a := (slotAddr ddrStart j).toNat)
      ⟨?_, ?_⟩ ⟨Nat.le_refl _, ?_⟩
    · dsimp only
      omega
    · dsimp only
      omega
    · dsimp only
      omega

/-- A function that adds two `rows`x`cols` arguments. -/
def addModule (rows cols : Nat) : Module :=
  let t := f16Type rows cols
  let out : Value := .alloc ⟨0, .user 0⟩ t (some 64)
  convertedModule [some t, some t]
    [.define out, .op (.elementwise .Add (.blockArg 0 0 t) (.blockArg 0 1 t) out),
      .ret [out]]

theorem ddrSizes_addModule : ddrSizes (addModule 4 8) = [64, 64, 64] := by
  decide +kernel

theorem ddrLayoutOk_iff_addModule : ∃ layout,
    eclipseAllocate .bump (addModule 4 8) = some layout
      ∧ DdrLayoutOk (addModule 4 8) layout := by
  have hrun : (eclipseAllocate .bump (addModule 4 8)).isSome = true := by
    decide +kernel
  obtain ⟨layout, halloc⟩ := Option.isSome_iff_exists.mp hrun
  refine ⟨layout, halloc, (ddrLayoutOk_iff halloc).mpr ⟨by decide +kernel, ?_, ?_⟩⟩
  · intro j size hj hne
    rw [ddrSizes_addModule] at hj
    have hlt : j < 3 := (List.getElem?_eq_some_iff.mp hj).1
    obtain rfl | rfl | rfl : j = 0 ∨ j = 1 ∨ j = 2 := by omega
    all_goals
      cases hj
      decide
  · intro i j sizeI sizeJ hi hj hij _ _ hle
    rw [ddrSizes_addModule] at hi hj
    have hli : i < 3 := (List.getElem?_eq_some_iff.mp hi).1
    have hlj : j < 3 := (List.getElem?_eq_some_iff.mp hj).1
    have hsize : sizeI = 64 := by
      obtain rfl | rfl | rfl : i = 0 ∨ i = 1 ∨ i = 2 := by omega
      all_goals
        cases hi
        rfl
    unfold slotOf at hle ⊢
    omega

/-- **Two 200x200 arguments overlap**: 80000 bytes in slots of 65536. -/
theorem ddr_buffers_collide :
    ¬ ∀ (option : LayoutOption) (module : Module) (layout : Layout),
      eclipseAllocate option module = some layout →
      DdrLayoutOk module layout := by
  intro h
  have hrun : ((eclipseAllocate .bump (addModule 200 200)).any fun layout =>
      decide (∃ b ∈ ddrBuffers layout, ∃ c ∈ ddrBuffers layout,
        b.2.toNat < c.2.toNat
          ∧ c.2.toNat < b.2.toNat + b.1.type.sizeInBytes
          ∧ 0 < c.1.type.sizeInBytes)) = true := by decide +kernel
  cases halloc : eclipseAllocate .bump (addModule 200 200) with
  | none => rw [halloc] at hrun; cases hrun
  | some layout =>
      rw [halloc] at hrun
      obtain ⟨b, hb, c, hc, hlt, hin, hne⟩ := of_decide_eq_true hrun
      have hbc : b ≠ c := by rintro rfl; omega
      have hpair := (h .bump _ layout halloc).disjoint
      exact hpair.forall hb hc hbc c.2.toNat ⟨by omega, hin⟩
        ⟨Nat.le_refl _, by omega⟩

end EclipseNpu.Compiler

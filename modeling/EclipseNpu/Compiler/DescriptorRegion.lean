import EclipseNpu.Compiler.EmitComplete
import EclipseNpu.Runtime.Stream

/-!
# Compiler — DescriptorRegion

Where `eclipse-to-easm` puts the descriptors. Every line but SYNC gets the
next 0x40 bytes from `DDR_ADDR + 0x100` on, and nothing bounds how many
lines there are: the command queue region `[DDR_ADDR, DDR_ADDR + 0x10000)`
has room for 1020 of them, and a stream keeps its descriptors there exactly
when the unrolled module executes no more operations that need one
(`queueOk_iff`).
-/

namespace EclipseNpu.Compiler

open EclipseNpu.Lib EclipseNpu.Runtime

/-- One past the command queue region. -/
def queueEnd : Nat := DDR_ADDR.toNat + 0x10000

@[simp] theorem queueEnd_eq : queueEnd = 0x40010000 := rfl

/-- The lines that have a descriptor. -/
def described (out : List EasmInsn) : List EasmInsn :=
  out.filter fun x => !x.isSync

/-- **The command queue region holds the descriptors**: the 0x40-byte slots
lie in it and are disjoint, so writing them changes no byte of a tensor
above the region, and a store to such a tensor changes no descriptor. -/
structure QueueOk (out : List EasmInsn) : Prop where
  inside : ∀ x ∈ described out,
    DDR_ADDR.toNat ≤ x.desc.toNat ∧ x.desc.toNat + 0x40 ≤ queueEnd
  disjoint : (described out).Pairwise fun x y =>
    x.desc.toNat + 0x40 ≤ y.desc.toNat ∨ y.desc.toNat + 0x40 ≤ x.desc.toNat
  tensors : ∀ s s', loadDescs out s = .ok s' →
    ∀ a, queueEnd ≤ a → s' (.ddr a) = s (.ddr a)
  stores : ∀ x ∈ out, (∀ a, Loc.ddr a ∈ x.writes → queueEnd ≤ a) →
    ∀ y ∈ out, StoreAvoids x y

/-! ## The descriptor counter -/

/-- The addresses the counter hands out, from `d` on. -/
def slotAddrs (d : UInt32) : Nat → List UInt32
  | 0 => []
  | n + 1 => d :: slotAddrs (d + DESC_LEN) n

theorem slotAddrs_append (m n : Nat) (d : UInt32) :
    slotAddrs d (m + n)
      = slotAddrs d m ++ slotAddrs (d + DESC_LEN * UInt32.ofNat m) n := by
  induction m generalizing d with
  | zero => simp [slotAddrs]
  | succ m ih =>
      have hnext : d + DESC_LEN + DESC_LEN * UInt32.ofNat m
          = d + DESC_LEN * UInt32.ofNat (m + 1) := by
        rw [UInt32.ofNat_add, UInt32.mul_add, UInt32.add_assoc,
          UInt32.add_comm DESC_LEN]
        rfl
      rw [Nat.add_right_comm, slotAddrs, ih, slotAddrs, hnext,
        List.cons_append]

theorem slotAddrs_bounds {n : Nat} :
    ∀ {d : UInt32}, d.toNat + 0x40 * n < 4294967296 →
      (∀ a ∈ slotAddrs d n,
        d.toNat ≤ a.toNat ∧ a.toNat + 0x40 ≤ d.toNat + 0x40 * n)
      ∧ (slotAddrs d n).Pairwise fun a b => a.toNat + 0x40 ≤ b.toNat := by
  induction n with
  | zero => intro d _; simp [slotAddrs]
  | succ n ih =>
      intro d hd
      have hnext : (d + DESC_LEN).toNat = d.toNat + 0x40 := by
        rw [UInt32.toNat_add, show DESC_LEN.toNat = 0x40 from rfl,
          Nat.mod_eq_of_lt (by omega)]
      obtain ⟨hb, hp⟩ := ih (d := d + DESC_LEN) (by omega)
      rw [hnext] at hb
      refine ⟨fun a ha => ?_, List.pairwise_cons.mpr ⟨fun a ha => ?_, hp⟩⟩
      · rcases List.mem_cons.mp ha with rfl | ha
        · omega
        · have := hb a ha
          omega
      · exact (hb a ha).1

/-- The walk numbers its descriptors one after another. -/
theorem emitInsts_slots {layout : Layout} {insts : List Inst} :
    ∀ {d : UInt32} {e : Emitted}, emitInsts layout d insts = some e →
      (described e.1).map EasmInsn.desc = slotAddrs d (described e.1).length
        ∧ e.2 = d + DESC_LEN * UInt32.ofNat (described e.1).length := by
  induction insts with
  | nil => intro d e h; cases h; exact ⟨rfl, by simp [described]⟩
  | cons i is ih =>
      intro d e h
      obtain ⟨e₁, h₁, h⟩ := Option.bind_eq_some_iff.mp h
      obtain ⟨e₂, h₂, h⟩ := Option.bind_eq_some_iff.mp h
      obtain ⟨hmap, hnext⟩ := ih h₂
      cases h
      cases emitOp_step h₁ with
      | line x hd hs _ _ =>
          have hdesc : described ([x] ++ e₂.1) = x :: described e₂.1 := by
            simp [described, hs]
          show (described ([x] ++ e₂.1)).map _ = _ ∧ e₂.2 = _
          rw [hdesc, List.map_cons, hmap, List.length_cons, slotAddrs, hd, hnext]
          refine ⟨rfl, ?_⟩
          rw [UInt32.ofNat_add, UInt32.mul_add, UInt32.add_assoc,
            UInt32.add_comm DESC_LEN]
          rfl
      | sync _ => exact ⟨hmap, hnext⟩
      | dropped _ => exact ⟨hmap, hnext⟩
      | silent _ => exact ⟨hmap, hnext⟩

/-! ## Running what was emitted -/

/-- A byte of a slot is a byte of its 0x40-byte region. -/
theorem inSlot_lt {x : EasmInsn} {a : Nat} (h : InSlot x a) :
    x.desc.toNat ≤ a ∧ a < x.desc.toNat + 0x40 ∧ x.isSync = false := by
  obtain ⟨hlo, hhi⟩ := h
  have hlen := x.descBytes_length_le
  refine ⟨hlo, by omega, ?_⟩
  cases hx : x.isSync with
  | false => rfl
  | true =>
      rw [descBytes_of_isSync hx, List.length_nil] at hhi
      omega

theorem mem_described {x : EasmInsn} {out : List EasmInsn} :
    x ∈ described out ↔ x ∈ out ∧ x.isSync = false := by
  simp [described]

/-- **An emitted stream runs on its own fields**, when its slots lie in
`ddr_` and no store writes them: `eclipse-run` is the plain run of the
instructions from a memory that differs from the given one in the slots
only. -/
theorem runEasm_emitted {F : Type} [Fp32 F] {layout : Layout}
    {insts : List Inst} {d : UInt32} {e : Emitted}
    (hemit : emitInsts layout d insts = some e) (hlo : DDR_ADDR.toNat ≤ d.toNat)
    (hhi : d.toNat + 0x40 * (described e.1).length ≤ ddrEnd)
    (hav : ∀ x ∈ e.1, ∀ a, Loc.ddr a ∈ x.writes →
      a < d.toNat ∨ d.toNat + 0x40 * (described e.1).length ≤ a) (s : CModel) :
    ∃ s₁, (∀ l, (∀ a, l = .ddr a →
          a < d.toNat ∨ d.toNat + 0x40 * (described e.1).length ≤ a) → s₁ l = s l)
      ∧ runEasm F e.1 s = runAll (runInsn F) e.1 s₁ := by
  obtain ⟨hmap, -⟩ := emitInsts_slots hemit
  obtain ⟨hb, hp⟩ := slotAddrs_bounds (n := (described e.1).length) (d := d)
    (by rw [ddrEnd_eq] at hhi; omega)
  rw [← hmap] at hb hp
  have hregion : ∀ x ∈ e.1, ∀ a, InSlot x a →
      d.toNat ≤ a ∧ a < d.toNat + 0x40 * (described e.1).length := by
    intro x hx a ha
    obtain ⟨h1, h2, hs⟩ := inSlot_lt ha
    have := hb x.desc (List.mem_map_of_mem (mem_described.mpr ⟨hx, hs⟩))
    omega
  have hslot : ∀ x ∈ e.1, SlotInDdr x := by
    intro x hx hs
    have := hb x.desc (List.mem_map_of_mem (mem_described.mpr ⟨hx, hs⟩))
    have hlen := x.descBytes_length_le
    omega
  have hpair : e.1.Pairwise fun x y => ∀ a, InSlot x a → ¬ InSlot y a := by
    refine (List.pairwise_filter.mp (List.pairwise_map.mp hp)).imp ?_
    intro x y hxy a hx hy
    obtain ⟨-, h2, hs⟩ := inSlot_lt hx
    obtain ⟨h3, -, hs'⟩ := inSlot_lt hy
    have := hxy (by simp [hs]) (by simp [hs'])
    omega
  obtain ⟨s₁, hload⟩ := loadDescs_total hslot s
  refine ⟨s₁, fun l hl => (loadDescs_ok hload).2 l fun x hx a ha hin => ?_, ?_⟩
  · have h1 := hl a ha
    have h2 := hregion x hx a hin
    omega
  · rw [runEasm, hload, ok_bind]
    refine runStream_eq hslot (loadDescs_ownDesc hpair hload) fun x hx y hy a hw hin => ?_
    have h1 := hav x hx a hw
    have h2 := hregion y hy a hin
    omega

/-! ## How many descriptors a module needs -/

/-- The operation becomes a line with a descriptor. -/
def Op.needsDescriptor (layout : Layout) (op : Op) : Bool :=
  !op.dropped layout && decide (op.opcode? ≠ none ∧ op.opcode? ≠ some .SYNC)

/-- The descriptors an unrolled module needs. -/
def descriptorCount (layout : Layout) (module : Module) : Nat :=
  (unrollModule module).countP fun i => i.op.needsDescriptor layout

/-- A line other than SYNC has another opcode. -/
theorem opcode_ne_sync {x : EasmInsn} (h : x.isSync = false) :
    x.opcode ≠ .SYNC := by
  cases x with
  | sync => cases h
  | elementwise op d p => cases op <;> simp [EasmInsn.opcode]
  | _ => simp [EasmInsn.opcode]

theorem emitInsts_described {layout : Layout} {insts : List Inst} :
    ∀ {d : UInt32} {e : Emitted}, emitInsts layout d insts = some e →
      (described e.1).length
        = insts.countP fun i => i.op.needsDescriptor layout := by
  induction insts with
  | nil => intro d e h; cases h; rfl
  | cons i is ih =>
      intro d e h
      obtain ⟨e₁, h₁, h⟩ := Option.bind_eq_some_iff.mp h
      obtain ⟨e₂, h₂, h⟩ := Option.bind_eq_some_iff.mp h
      have hrest := ih h₂
      cases h
      rw [List.countP_cons, ← hrest]
      cases emitOp_step h₁ with
      | line x _ hs hop hkept =>
          rw [if_pos (by simp [Op.needsDescriptor, hkept, hop, opcode_ne_sync hs])]
          simp [described, hs]
      | sync hop =>
          rw [if_neg (by simp [Op.needsDescriptor, hop, Op.opcode?])]
          rfl
      | dropped hdrop =>
          rw [if_neg (by simp [Op.needsDescriptor, hdrop])]
          rfl
      | silent hop =>
          rw [if_neg (by simp [Op.needsDescriptor, hop])]
          rfl

/-! ## When the region is large enough -/

/-- Slots inside the region keep clear of everything above it. -/
theorem queueOk_of_inside {out : List EasmInsn}
    (hin : ∀ x ∈ described out,
      DDR_ADDR.toNat ≤ x.desc.toNat ∧ x.desc.toNat + 0x40 ≤ queueEnd)
    (hd : (described out).Pairwise fun x y =>
      x.desc.toNat + 0x40 ≤ y.desc.toNat ∨ y.desc.toNat + 0x40 ≤ x.desc.toNat) :
    QueueOk out := by
  have hbelow : ∀ x ∈ out, ∀ a, InSlot x a → a < queueEnd := by
    intro x hx a ha
    obtain ⟨-, hhi, hs⟩ := inSlot_lt ha
    have := (hin x (mem_described.mpr ⟨hx, hs⟩)).2
    omega
  refine ⟨hin, hd, fun s s' hload a ha => ?_, fun x hx hw y hy a hwa hya => ?_⟩
  · refine (loadDescs_ok hload).2 _ ?_
    rintro x hx _ ⟨⟩ hslot
    have := hbelow x hx a hslot
    omega
  · have h1 := hw a hwa
    have h2 := hbelow y hy a hya
    omega

/-- **When the descriptors stay in the command queue region**: exactly when
the module needs at most 1020 of them. -/
theorem queueOk_iff {layout : Layout} {module : Module} {out : List EasmInsn}
    (hemit : eclipseToEasm layout module = some out) :
    QueueOk out ↔ descriptorCount layout module ≤ 1020 := by
  obtain ⟨e, he, rfl⟩ := Option.map_eq_some_iff.mp hemit
  obtain ⟨hmap, -⟩ := emitInsts_slots he
  rw [descriptorCount, ← emitInsts_described he]
  have hstart : DESC_STARTADDR.toNat = 0x40000100 := rfl
  constructor
  · intro hq
    by_contra hlen
    -- slot number 1020 would begin where the region ends
    obtain ⟨n, hn⟩ : ∃ n, (described e.1).length = 1020 + (n + 1) :=
      ⟨(described e.1).length - 1021, by omega⟩
    have hmem : DESC_STARTADDR + DESC_LEN * UInt32.ofNat 1020
        ∈ (described e.1).map EasmInsn.desc := by
      rw [hmap, hn, slotAddrs_append]
      exact List.mem_append_right _ (List.mem_cons_self ..)
    obtain ⟨x, hx, hxd⟩ := List.mem_map.mp hmem
    have hin := (hq.inside x hx).2
    rw [hxd] at hin
    exact absurd hin (by decide)
  · intro hlen
    obtain ⟨hb, hp⟩ := slotAddrs_bounds (n := (described e.1).length)
      (d := DESC_STARTADDR) (by omega)
    rw [← hmap] at hb hp
    refine queueOk_of_inside (fun x hx => ?_) ?_
    · have := hb x.desc (List.mem_map_of_mem hx)
      rw [hstart] at this
      simp only [DDR_ADDR_toNat, queueEnd_eq]
      omega
    · exact (List.pairwise_map.mp hp).imp .inl

/-- One matmul with `t` blocks of K, of two arguments into an alloc. -/
def matmulModule (t : Nat) : Module :=
  let a := f16Type 1 (16 * t)
  let b := f16Type (16 * t) 1
  let c : Value := .alloc ⟨0, .user 0⟩ (f16Type 1 1) (some 64)
  convertedModule [some a, some b]
    [.define c, .op (.matmul (.blockArg 0 0 a) (.blockArg 0 1 b) c), .ret [c]]

theorem queueOk_iff_matmul : ∃ layout out,
    eclipseAllocate .bump (matmulModule 2) = some layout
      ∧ eclipseToEasm layout (matmulModule 2) = some out ∧ QueueOk out := by
  have hrun : finishesWith (matmulModule 2) (fun layout _ =>
      decide (descriptorCount layout (matmulModule 2) ≤ 1020)) = true := by
    decide +kernel
  obtain ⟨layout, out, halloc, hemit, hlen⟩ := finishesWith_spec hrun
  exact ⟨layout, out, halloc, hemit,
    (queueOk_iff hemit).mpr (of_decide_eq_true hlen)⟩

/-- **The queue overflows**: a matmul with 341 blocks of K has 1024
descriptors. -/
theorem descriptors_leave_queue :
    ¬ ∀ (layout : Layout) (module : Module) (out : List EasmInsn),
      eclipseToEasm layout module = some out → QueueOk out := by
  intro h
  have hrun : finishesWith (matmulModule 341) (fun _ out =>
      decide (∃ x ∈ described out, queueEnd < x.desc.toNat + 0x40)) = true := by
    decide +kernel
  obtain ⟨layout, out, -, hemit, hout⟩ := finishesWith_spec hrun
  obtain ⟨x, hx, hlt⟩ := of_decide_eq_true hout
  have := ((h layout _ out hemit).inside x hx).2
  omega

end EclipseNpu.Compiler

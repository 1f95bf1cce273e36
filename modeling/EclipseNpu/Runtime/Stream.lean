import EclipseNpu.Runtime.Footprints

/-!
# Runtime — Stream

From the queue to the instructions: `exec` re-reads each descriptor from
memory, so it executes an instruction's own fields as long as the slot
still holds them. `OwnDesc` is kept by every instruction whose stores
stay off the slot, and a stream whose stores avoid all slots therefore
runs as `runInsn` does (`runStream_eq`).

The other half is `loadDescs`: it changes slot bytes only, and one memory
in which every slot holds its own descriptor is the result of every order
of the lines (`loadDescs_eq`).
-/

namespace EclipseNpu.Runtime

open EclipseNpu.Lib

/-- `x` stores to no byte of the slot of `y`. -/
def StoreAvoids (x y : EasmInsn) : Prop :=
  ∀ a, Loc.ddr a ∈ x.writes → ¬ InSlot y a

/-- Only a DMA_STORE writes DDR. -/
theorem not_writes_ddr {x : EasmInsn} (h : ∀ d p, x ≠ .dmaStore d p) (a : Nat) :
    Loc.ddr a ∉ x.writes := by
  intro ha
  cases x with
  | dmaStore d p => exact h d p rfl
  | sync => cases ha
  | dmaLoad | matmul | elementwise | act | reduce =>
      simp [EasmInsn.writes, elemBytes] at ha

theorem StoreAvoids.of_notStore {x y : EasmInsn} (h : ∀ d p, x ≠ .dmaStore d p) :
    StoreAvoids x y := fun a ha => absurd ha (not_writes_ddr h a)

/-! ## Executing one's own descriptor -/

section Exec

variable {F : Type} [Fp32 F]

theorem OwnDesc.runInsn {x y : EasmInsn} {s s' : CModel} (h : OwnDesc y s)
    (hav : StoreAvoids x y) (hr : runInsn F x s = .ok s') : OwnDesc y s' :=
  h.congr fun a ha => (runInsn_footprint x).frame hr _ fun hw => hav a hw ha

/-- One row of a store keeps a slot the whole store avoids. -/
theorem OwnDesc.dmaStoreRow {d : UInt32} {p : DMAParam} {y : EasmInsn}
    {i : Nat} {s s' : CModel} (h : OwnDesc y s)
    (hav : StoreAvoids (.dmaStore d p) y) (hi : i < p.rows.toNat)
    (hr : dmaStoreRow p i s = .ok s') : OwnDesc y s' := by
  obtain ⟨-, rfl⟩ := dmaStoreRow_ok_iff.mp hr
  refine h.congr fun a ha => copyToDdr_out ?_
  by_contra hin
  refine hav a ⟨i, hi, a - (p.storeDst i).toNat, by omega, ?_⟩ ha
  congr 1
  omega

/-- SYNC has no slot; every other descriptor has a byte. -/
theorem descBytes_length_pos {x : EasmInsn} (h : x.isSync = false) :
    0 < x.descBytes.length := by
  cases x with
  | sync => cases h
  | _ => simp [EasmInsn.descBytes]

theorem readDesc_own {α : Type} {load : (Nat → UInt8) → Nat → α} {n : Nat}
    {x : EasmInsn} {s : CModel} {p : α} (hslot : SlotInDdr x)
    (hx : x.isSync = false) (hn : x.descBytes.length = n)
    (hload : load s.ddrByte x.desc.toNat = p) :
    readDesc load n x.desc s = .ok p := by
  obtain ⟨hlo, hhi⟩ := hslot hx
  have hpos := descBytes_length_pos hx
  rw [DDR_ADDR_toNat] at hlo
  exact readDesc_ok_iff.mpr ⟨⟨hlo, by omega, by omega⟩, hload.symm⟩

/-- The rows a store has left, its descriptor read again before each. -/
theorem dmaStoreRows_eq {d : UInt32} {p : DMAParam}
    (hslot : SlotInDdr (.dmaStore d p))
    (hav : StoreAvoids (.dmaStore d p) (.dmaStore d p)) :
    ∀ (fuel i : Nat) (s : CModel), OwnDesc (.dmaStore d p) s →
      p.rows.toNat - i < fuel →
      dmaStoreRows d fuel i s
        = forLoop (p.rows.toNat - i) (fun j => dmaStoreRow p (i + j)) s := by
  intro fuel
  induction fuel with
  | zero => intro i s _ hf; omega
  | succ fuel ih =>
      intro i s hown hf
      have hread : readDesc DMAParam.load 24 d s = .ok p :=
        readDesc_own (x := .dmaStore d p) hslot rfl (DMAParam.bytes_length p) (DMAParam.load_bytes hown)
      rw [dmaStoreRows, hread, ok_bind]
      by_cases hi : i < p.rows.toNat
      · rw [if_pos hi]
        obtain ⟨n, hn⟩ : ∃ n, p.rows.toNat - i = n + 1 :=
          ⟨p.rows.toNat - i - 1, by omega⟩
        rw [hn, forLoop_succ', Nat.add_zero]
        cases hrow : dmaStoreRow p i s with
        | error e => rfl
        | ok t =>
            have ht := hown.dmaStoreRow hav hi hrow
            rw [ok_bind, ok_bind, ih (i + 1) t ht (by omega),
              show p.rows.toNat - (i + 1) = n from by omega]
            refine forLoop_congr fun j _ u => ?_
            rw [show i + 1 + j = i + (j + 1) from by omega]
      · rw [if_neg hi, show p.rows.toNat - i = 0 from by omega]
        rfl

/-- **An instruction whose slot holds its descriptor executes its own
fields**, also a store that re-reads the slot row by row. -/
theorem exec_toInstruction {x : EasmInsn} {s : CModel} (hslot : SlotInDdr x)
    (hown : OwnDesc x s) (hav : StoreAvoids x x) :
    exec F x.toInstruction s = runInsn F x s := by
  cases x with
  | sync => rfl
  | dmaLoad d p =>
      have hread : readDesc DMAParam.load 24 d s = .ok p :=
        readDesc_own (x := .dmaLoad d p) hslot rfl (DMAParam.bytes_length p) (DMAParam.load_bytes hown)
      show execDmaLoad d s = dmaLoad p s
      rw [execDmaLoad, hread, ok_bind]
  | dmaStore d p =>
      have hread : readDesc DMAParam.load 24 d s = .ok p :=
        readDesc_own (x := .dmaStore d p) hslot rfl (DMAParam.bytes_length p) (DMAParam.load_bytes hown)
      have hrows := dmaStoreRows_eq hslot hav (2 ^ 32) 0 s hown
        (by have := p.rows.toNat_lt; omega)
      simp only [Nat.sub_zero, Nat.zero_add] at hrows
      show execDmaStore d s = dmaStore p s
      rw [execDmaStore, hread, ok_bind, hrows]
      rfl
  | matmul d p =>
      have hread : readDesc MatmulParam.load 32 d s = .ok p :=
        readDesc_own (x := .matmul d p) hslot rfl (MatmulParam.bytes_length p) (MatmulParam.load_bytes hown)
      show execMatmul F d s = matmul F p s
      rw [execMatmul, hread, ok_bind]
  | elementwise op d p =>
      have hread : readDesc EwiseParam.load 28 d s = .ok p :=
        readDesc_own (x := .elementwise op d p) hslot rfl (EwiseParam.bytes_length p) (EwiseParam.load_bytes hown)
      have hop : exec F (EasmInsn.elementwise op d p).toInstruction s
          = execElementwise F d op s := by cases op <;> rfl
      rw [hop, execElementwise, hread, ok_bind]
      rfl
  | act d p =>
      have hread : readDesc ActParam.load 32 d s = .ok p :=
        readDesc_own (x := .act d p) hslot rfl (ActParam.bytes_length p) (ActParam.load_bytes hown)
      show execAct F d s = act F p s
      rw [execAct, hread, ok_bind]
  | reduce d p =>
      have hread : readDesc ReduceParam.load 24 d s = .ok p :=
        readDesc_own (x := .reduce d p) hslot rfl (ReduceParam.bytes_length p) (ReduceParam.load_bytes hown)
      show execReduce F d s = reduce F p s
      rw [execReduce, hread, ok_bind]

/-- **A stream whose stores avoid its slots executes its own fields.** -/
theorem runStream_eq {xs : List EasmInsn} {s : CModel}
    (hslot : ∀ x ∈ xs, SlotInDdr x) (hown : ∀ x ∈ xs, OwnDesc x s)
    (hav : ∀ x ∈ xs, ∀ y ∈ xs, StoreAvoids x y) :
    runStream F xs s = runAll (runInsn F) xs s := by
  induction xs generalizing s with
  | nil => rfl
  | cons x xs ih =>
      show exec F x.toInstruction s >>= runStream F xs
        = runInsn F x s >>= runAll (runInsn F) xs
      rw [exec_toInstruction (hslot x (by simp)) (hown x (by simp))
        (hav x (by simp) x (by simp))]
      cases hx : runInsn F x s with
      | error e => rfl
      | ok t =>
          refine ih (fun y hy => hslot y (by simp [hy])) (fun y hy => ?_)
            fun y hy z hz => hav y (by simp [hy]) z (by simp [hz])
          exact (hown y (by simp [hy])).runInsn (hav x (by simp) y (by simp [hy]))
            hx

end Exec

/-- Zeroes, with the descriptor of `x` in its slot. -/
def withDesc (x : EasmInsn) : CModel :=
  CModel.storeDdr (fun _ => 0) x.desc.toNat x.descBytes

theorem ownDesc_withDesc (x : EasmInsn) : OwnDesc x (withDesc x) :=
  storeDdr_holds _ _ _

/-! ## Loading the descriptors -/

theorem writeDDR_ok_iff {addr : UInt32} {bs : List UInt8} {s s' : CModel} :
    writeDDR addr bs s = .ok s' ↔
      DdrRow addr bs.length ∧ s' = s.storeDdr addr.toNat bs := by
  constructor
  · intro h
    obtain ⟨p, hp, h⟩ := bind_ok h
    obtain ⟨u, hu, h⟩ := bind_ok h
    obtain ⟨rfl, hlo, hhi⟩ := ddr_ok_iff.mp hp
    cases h
    exact ⟨⟨hlo, hhi, ddrSpan_ok_iff.mp hu⟩, rfl⟩
  · rintro ⟨⟨hlo, hhi, hsp⟩, rfl⟩
    rw [writeDDR, ddr_ok_iff.mpr ⟨rfl, hlo, hhi⟩, ok_bind,
      show ddrSpan _ _ = .ok () from ddrSpan_ok_iff.mpr hsp, ok_bind]
    rfl

theorem descBytes_of_isSync {x : EasmInsn} (h : x.isSync = true) :
    x.descBytes = [] := by
  cases x with
  | sync => rfl
  | _ => cases h

theorem slotInDdr_of_row {x : EasmInsn}
    (h : DdrRow x.desc x.descBytes.length) : SlotInDdr x := by
  intro hx
  obtain ⟨hlo, hhi, hsp⟩ := h
  have := descBytes_length_pos hx
  exact ⟨hlo, by omega⟩

theorem row_of_slotInDdr {x : EasmInsn} (hx : x.isSync = false)
    (h : SlotInDdr x) : DdrRow x.desc x.descBytes.length := by
  obtain ⟨hlo, hhi⟩ := h hx
  have := descBytes_length_pos hx
  exact ⟨hlo, by omega, .inr hhi⟩

/-- `l` is a byte of no slot of `xs`. -/
def OffSlots (xs : List EasmInsn) (l : Loc) : Prop :=
  ∀ x ∈ xs, ∀ a, l = .ddr a → ¬ InSlot x a

theorem storeDdr_offSlot {x : EasmInsn} {s : CModel} {l : Loc}
    (h : ∀ a, l = .ddr a → ¬ InSlot x a) :
    s.storeDdr x.desc.toNat x.descBytes l = s l := by
  cases l with
  | sram a => rfl
  | ddr a =>
      refine storeDdr_out ?_
      have := h a rfl
      unfold InSlot at this
      omega

/-- What a finished main loop says: every slot is in range, and only slot
bytes changed. -/
theorem loadDescs_ok {xs : List EasmInsn} {s s' : CModel}
    (h : loadDescs xs s = .ok s') :
    (∀ x ∈ xs, SlotInDdr x) ∧ ∀ l, OffSlots xs l → s' l = s l := by
  induction xs generalizing s with
  | nil => cases h; exact ⟨by simp, fun _ _ => rfl⟩
  | cons x xs ih =>
      rw [loadDescs] at h
      have hoff : ∀ l, OffSlots (x :: xs) l → OffSlots xs l :=
        fun l hl y hy => hl y (by simp [hy])
      by_cases hx : x.isSync = true
      · rw [if_pos hx] at h
        obtain ⟨hs, hf⟩ := ih h
        refine ⟨fun y hy => ?_, fun l hl => hf l (hoff l hl)⟩
        rcases List.mem_cons.mp hy with rfl | hy
        · intro hne; rw [hx] at hne; cases hne
        · exact hs y hy
      · rw [if_neg hx] at h
        obtain ⟨t, ht, h⟩ := bind_ok h
        obtain ⟨hrow, rfl⟩ := writeDDR_ok_iff.mp ht
        obtain ⟨hs, hf⟩ := ih h
        refine ⟨fun y hy => ?_, fun l hl => ?_⟩
        · rcases List.mem_cons.mp hy with rfl | hy
          · exact slotInDdr_of_row hrow
          · exact hs y hy
        · rw [hf l (hoff l hl)]
          exact storeDdr_offSlot fun a => hl x (by simp) a

/-- Slots in range are all written. -/
theorem loadDescs_total {xs : List EasmInsn} (h : ∀ x ∈ xs, SlotInDdr x)
    (s : CModel) : ∃ s', loadDescs xs s = .ok s' := by
  induction xs generalizing s with
  | nil => exact ⟨s, rfl⟩
  | cons x xs ih =>
      have ih := ih fun y hy => h y (by simp [hy])
      rw [loadDescs]
      by_cases hx : x.isSync = true
      · rw [if_pos hx]
        exact ih s
      · rw [if_neg hx, writeDDR_ok_iff.mpr ⟨row_of_slotInDdr (by simpa using hx)
          (h x (by simp)), rfl⟩, ok_bind]
        exact ih _

/-- **One target, every order**: a memory whose slots hold their own
descriptors is what the main loop makes of any memory that agrees with it
off the slots. -/
theorem loadDescs_eq {xs : List EasmInsn} {s s' : CModel}
    (hslot : ∀ x ∈ xs, SlotInDdr x) (hown : ∀ x ∈ xs, OwnDesc x s')
    (hoff : ∀ l, OffSlots xs l → s l = s' l) : loadDescs xs s = .ok s' := by
  induction xs generalizing s with
  | nil =>
      rw [loadDescs, show s = s' from funext fun l => hoff l (by simp [OffSlots])]
  | cons x xs ih =>
      have hslot' : ∀ y ∈ xs, SlotInDdr y := fun y hy => hslot y (by simp [hy])
      have hown' : ∀ y ∈ xs, OwnDesc y s' := fun y hy => hown y (by simp [hy])
      rw [loadDescs]
      by_cases hx : x.isSync = true
      · rw [if_pos hx]
        refine ih hslot' hown' fun l hl => hoff l fun y hy => ?_
        rcases List.mem_cons.mp hy with rfl | hy
        · intro a _ ha
          rw [InSlot, descBytes_of_isSync hx, List.length_nil] at ha
          omega
        · exact hl y hy
      · rw [if_neg hx, writeDDR_ok_iff.mpr ⟨row_of_slotInDdr (by simpa using hx)
          (hslot x (by simp)), rfl⟩, ok_bind]
        refine ih hslot' hown' fun l hl => ?_
        by_cases hlx : ∀ a, l = .ddr a → ¬ InSlot x a
        · rw [storeDdr_offSlot hlx]
          refine hoff l fun y hy => ?_
          rcases List.mem_cons.mp hy with rfl | hy
          · exact hlx
          · exact hl y hy
        · -- a byte of the slot of x: both memories hold its descriptor there
          push Not at hlx
          obtain ⟨a, rfl, ha⟩ := hlx
          obtain ⟨k, rfl⟩ : ∃ k, a = x.desc.toNat + k :=
            ⟨a - x.desc.toNat, by unfold InSlot at ha; omega⟩
          have hk : k < x.descBytes.length := by unfold InSlot at ha; omega
          exact (storeDdr_holds s x.desc.toNat x.descBytes k hk).trans
            (hown x (by simp) k hk).symm

/-- Slots that share no byte hold their own descriptors after the main
loop. -/
theorem loadDescs_ownDesc {xs : List EasmInsn} {s s' : CModel}
    (hd : xs.Pairwise fun x y => ∀ a, InSlot x a → ¬ InSlot y a)
    (h : loadDescs xs s = .ok s') : ∀ x ∈ xs, OwnDesc x s' := by
  induction xs generalizing s with
  | nil => simp
  | cons x xs ih =>
      obtain ⟨hdx, hd⟩ := List.pairwise_cons.mp hd
      rw [loadDescs] at h
      intro y hy
      by_cases hx : x.isSync = true
      · rw [if_pos hx] at h
        rcases List.mem_cons.mp hy with rfl | hy
        · intro k hk
          rw [descBytes_of_isSync hx] at hk
          cases hk
        · exact ih hd h y hy
      · rw [if_neg hx] at h
        obtain ⟨t, ht, h⟩ := bind_ok h
        obtain ⟨-, rfl⟩ := writeDDR_ok_iff.mp ht
        rcases List.mem_cons.mp hy with rfl | hy
        · have hown : OwnDesc y (s.storeDdr y.desc.toNat y.descBytes) :=
            storeDdr_holds s _ _
          refine hown.congr fun a ha => (loadDescs_ok h).2 _ ?_
          rintro z hz _ ⟨⟩
          exact hdx z hz a ha
        · exact ih hd h y hy

end EclipseNpu.Runtime

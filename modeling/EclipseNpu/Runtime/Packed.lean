import EclipseNpu.Runtime.CModel

/-!
# Runtime — Packed

Packed fp16 arrays in SRAM, and the loops that fill one element by element.
Every compute instruction is such a loop: `forLoop_cells` turns it into the
values of the elements and the frame, from what one cell does on a memory
whose first `i` elements are already written.
-/

namespace EclipseNpu.Runtime

open EclipseNpu.Lib

/-- The fp16 bits of element `i` of the packed array at `base`. -/
def elemAt (s : CModel) (base i : Nat) : UInt16 :=
  loadU16 s.sramByte (base + i * 2)

/-- An array of `n` elements lies in `sram_`. -/
def InSram (base n : Nat) : Prop :=
  0x10000000 ≤ base ∧ base + n * 2 ≤ sramEnd

instance (base n : Nat) : Decidable (InSram base n) :=
  inferInstanceAs (Decidable (_ ∧ _))

/-- The fp16 bits of element `i` of the packed array at DDR address `base`. -/
def ddrElem (s : CModel) (base i : Nat) : UInt16 :=
  loadU16 s.ddrByte (base + i * 2)

/-- An array of `n` elements lies in `ddr_`. -/
def InDdr (base n : Nat) : Prop :=
  0x40000000 ≤ base ∧ base + n * 2 ≤ ddrEnd

instance (base n : Nat) : Decidable (InDdr base n) :=
  inferInstanceAs (Decidable (_ ∧ _))

/-- Byte `k` of the packed array `f`. -/
def elemByte (f : Nat → UInt16) (k : Nat) : UInt8 := (u16Bytes (f (k / 2))).getD (k % 2) 0

theorem loadU16_elemByte {rd : Nat → UInt8} {f : Nat → UInt16} {base i : Nat}
    (h0 : rd (base + i * 2) = elemByte f (i * 2))
    (h1 : rd (base + i * 2 + 1) = elemByte f (i * 2 + 1)) :
    loadU16 rd (base + i * 2) = f i := by
  have hdiv : i * 2 / 2 = i ∧ (i * 2 + 1) / 2 = i := by omega
  have hmod : i * 2 % 2 = 0 ∧ (i * 2 + 1) % 2 = 1 := by omega
  rw [elemByte, hdiv.1, hmod.1] at h0
  rw [elemByte, hdiv.2, hmod.2] at h1
  refine loadU16_of_holds fun k hk => ?_
  obtain rfl | rfl : k = 0 ∨ k = 1 := by
    have : (u16Bytes (f i)).length = 2 := rfl
    omega
  · exact h0
  · exact h1

/-- A memory with the packed array `f` at DDR address `base`. -/
def ddrHolding (base : Nat) (f : Nat → UInt16) : CModel
  | .sram _ => 0
  | .ddr x => elemByte f (x - base)

theorem ddrElem_ddrHolding (base : Nat) (f : Nat → UInt16) (i : Nat) :
    ddrElem (ddrHolding base f) base i = f i := by
  refine loadU16_elemByte ?_ ?_
  · show elemByte f (base + i * 2 - base) = _
    rw [Nat.add_sub_cancel_left]
  · show elemByte f (base + i * 2 + 1 - base) = _
    rw [Nat.add_assoc, Nat.add_sub_cancel_left]

/-- `t` is `s` but for the first `n` elements of the array at `base`. -/
def AgreeOff (s t : CModel) (base n : Nat) : Prop :=
  ∀ l, (∀ a, l = .sram a → a < base ∨ base + n * 2 ≤ a) → t l = s l

theorem AgreeOff.refl (s : CModel) (base n : Nat) : AgreeOff s s base n :=
  fun _ _ => rfl

/-- An element outside the changed part is unchanged. -/
theorem AgreeOff.elemAt_eq {s t : CModel} {base n b i : Nat}
    (h : AgreeOff s t base n) (hd : b + i * 2 + 2 ≤ base ∨ base + n * 2 ≤ b + i * 2) :
    elemAt t b i = elemAt s b i := by
  refine loadU16_congr (h _ ?_) (h _ ?_)
  · rintro a ⟨⟩; omega
  · rintro a ⟨⟩; omega

theorem readFP16_elem {F : Type} [Fp32 F] {s : CModel} {addr : UInt32}
    {base i n : Nat} (ha : addr.toNat = base + i * 2) (hs : InSram base n)
    (hi : i < n) :
    readFP16 F addr s = .ok (Fp32.fp16ToFp32 (elemAt s base i)) := by
  obtain ⟨hlo, hhi⟩ := hs
  refine (readFP16_ok_iff F).mpr ⟨⟨by omega, by omega⟩, ?_⟩
  rw [elemAt, ha]

theorem writeFP16_elem {F : Type} [Fp32 F] {s : CModel} {addr : UInt32} {v : F}
    {base i n : Nat} (ha : addr.toNat = base + i * 2) (hs : InSram base n)
    (hi : i < n) :
    writeFP16 addr v s
      = .ok (s.storeSram (base + i * 2) (u16Bytes (Fp32.fp32ToFp16 v))) := by
  obtain ⟨hlo, hhi⟩ := hs
  refine (writeFP16_ok_iff F).mpr ⟨⟨by omega, by omega⟩, ?_⟩
  rw [ha]

theorem elemAt_storeSram {s : CModel} {base i : Nat} {v : UInt16} :
    elemAt (s.storeSram (base + i * 2) (u16Bytes v)) base i = v :=
  loadU16_of_holds (storeSram_holds _ _ _)

/-- **A loop over the elements of an array**: if cell `i` writes `val i`
whenever the elements before it are the only change so far, the loop writes
`val`, and nothing else. -/
theorem forLoop_cells {s : CModel} {n base : Nat}
    {cell : Nat → CModel → Except Fault CModel} {val : Nat → UInt16}
    (hcell : ∀ i < n, ∀ t, AgreeOff s t base i →
      cell i t = .ok (t.storeSram (base + i * 2) (u16Bytes (val i)))) :
    ∃ s', forLoop n cell s = .ok s' ∧ (∀ i < n, elemAt s' base i = val i)
      ∧ AgreeOff s s' base n := by
  obtain ⟨s', hs', hval, hoff⟩ := forLoop_spec (n := n) (f := cell) (s := s)
    (fun i t => (∀ j < i, elemAt t base j = val j) ∧ AgreeOff s t base i)
    ⟨fun j hj => by omega, AgreeOff.refl s base 0⟩
    (fun i hi t ⟨hval, hoff⟩ => by
      refine ⟨_, hcell i hi t hoff, fun j hj => ?_, fun l hl => ?_⟩
      · rcases Nat.lt_succ_iff_lt_or_eq.mp hj with hlt | rfl
        · rw [← hval j hlt]
          refine loadU16_congr (storeSram_out ?_) (storeSram_out ?_)
          · omega
          · omega
        · exact elemAt_storeSram
      · have hstore : t.storeSram (base + i * 2) (u16Bytes (val i)) l = t l := by
          cases l with
          | ddr a => rfl
          | sram a =>
              have hlen : (u16Bytes (val i)).length = 2 := rfl
              have := hl a rfl
              exact storeSram_out (by omega)
        rw [hstore]
        exact hoff l fun a ha => by have := hl a ha; omega)
  exact ⟨s', hs', hval, hoff⟩

/-- Two nested loops are one loop over the flat index. -/
theorem forLoop_nest {m n : Nat}
    {f : Nat → Nat → CModel → Except Fault CModel} {s : CModel} :
    forLoop m (fun i => forLoop n (f i)) s
      = forLoop (m * n) (fun k => f (k / n) (k % n)) s := by
  have hrow : ∀ (i j : Nat) (s : CModel), j ≤ n →
      forLoop (i * n + j) (fun k => f (k / n) (k % n)) s
        = forLoop (i * n) (fun k => f (k / n) (k % n)) s >>= forLoop j (f i) := by
    intro i j
    induction j with
    | zero =>
        intro s _
        cases forLoop (i * n) (fun k => f (k / n) (k % n)) s <;> rfl
    | succ j ih =>
        intro s hj
        have hj : j < n := by omega
        rw [← Nat.add_assoc, forLoop_succ, ih s (by omega), flat_div hj, flat_mod hj]
        cases forLoop (i * n) (fun k => f (k / n) (k % n)) s <;> rfl
  induction m generalizing s with
  | zero => rw [Nat.zero_mul]; rfl
  | succ m ih =>
      rw [forLoop_succ, ih, Nat.succ_mul, hrow m n s (Nat.le_refl n)]

end EclipseNpu.Runtime

import EclipseNpu.Compiler.BodySem
import EclipseNpu.Compiler.SramLayout
import EclipseNpu.Compiler.UnaryStream

/-!
# Compiler — BodyMemory

The memory of the simulator that holds a body state: every tile lies at its SRAM
address and every buffer at its DDR address (`Holds`). With the buffers of a
layout in range and apart from each other (`Layout.Placed`), a change of one tile
or one buffer is a change of the same one in the body state.
-/

namespace EclipseNpu.Compiler

open EclipseNpu.Runtime

/-- The 16-bit words of a buffer. -/
def MemRefType.words (t : MemRefType) : Nat := t.sizeInBytes / 2

/-- `n` words. -/
def wordsOf (n : Nat) (f : Nat → UInt16) : Contents := (List.range n).map f

@[simp] theorem length_wordsOf (n : Nat) (f : Nat → UInt16) : (wordsOf n f).length = n := by
  rw [wordsOf, List.length_map, List.length_range]

theorem getD_wordsOf {n i : Nat} (f : Nat → UInt16) (hi : i < n) :
    (wordsOf n f).getD i 0 = f i := by
  rw [wordsOf, List.getD_eq_getElem?_getD, List.getElem?_map, List.getElem?_range hi]
  rfl

/-! ## Layouts -/

/-- **A layout the stream can run on**: the tiles in SRAM and the buffers in DDR
past the command queue, each apart from the others. -/
structure Layout.Placed (layout : Layout) : Prop where
  sramIn : ∀ v a, layout.sramAddr? v = some a → InSram a.toNat v.type.words
  sramAlign : ∀ v a, layout.sramAddr? v = some a → allocAlignment v ∣ a.toNat
  sramApart : ∀ v w a b, v ≠ w → layout.sramAddr? v = some a →
    layout.sramAddr? w = some b → 0 < v.type.words → 0 < w.type.words →
    ArraysApart a.toNat v.type.words b.toNat w.type.words
  ddrIn : ∀ v a, ddrBaseAddr layout v = some a → 0 < v.type.words →
    InDdr a.toNat v.type.words ∧ ddrStart.toNat ≤ a.toNat ∧ a.toNat % 16 = 0
  ddrApart : ∀ v w a b, v ≠ w → ddrBaseAddr layout v = some a →
    ddrBaseAddr layout w = some b → 0 < v.type.words → 0 < w.type.words →
    ArraysApart a.toNat v.type.words b.toNat w.type.words

/-- **The memory holds the body state**: word by word, every tile and every buffer
that has an address. -/
structure Holds (layout : Layout) (s : BodyState) (u : CModel) : Prop where
  sram : ∀ v a, layout.sramAddr? v = some a → ∀ i < v.type.words,
    elemAt u a.toNat i = (s.sram v).getD i 0
  ddr : ∀ v a, ddrBaseAddr layout v = some a → ∀ i < v.type.words,
    ddrElem u a.toNat i = (s.ddr v).getD i 0

/-- `t` is `s` but for the first `n` words of the buffer at `base`. -/
def AgreeOffBuffer (s t : CModel) (base n : Nat) : Prop :=
  ∀ l, (∀ a, l = .ddr a → a < base ∨ base + n * 2 ≤ a) → t l = s l

section Frame

variable {layout : Layout} {s : BodyState} {u u' : CModel} {t x : Value} {addr : UInt32}
  {c : Contents}

theorem AgreeOffBuffer.ddrElem_eq {base n b i : Nat} (h : AgreeOffBuffer u u' base n)
    (hd : b + i * 2 + 2 ≤ base ∨ base + n * 2 ≤ b + i * 2) :
    ddrElem u' b i = ddrElem u b i := by
  refine loadU16_congr (h _ ?_) (h _ ?_)
  · intro a ha
    cases ha
    omega
  · intro a ha
    cases ha
    omega

/-- Of no words nothing changes. -/
theorem AgreeOffBuffer.eq_of_zero {base n : Nat} (h : AgreeOffBuffer u u' base n)
    (hn : n = 0) : u' = u :=
  funext fun l => h l fun a _ => by omega

theorem agreeOff_eq_of_zero {base n : Nat} (h : AgreeOff u u' base n) (hn : n = 0) : u' = u :=
  funext fun l => h l fun a _ => by omega

theorem AgreeOffBuffer.elemAt_eq {base n b i : Nat} (h : AgreeOffBuffer u u' base n) :
    elemAt u' b i = elemAt u b i :=
  loadU16_congr (h _ (by intro a ha; cases ha)) (h _ (by intro a ha; cases ha))

/-- **One tile changes.** -/
theorem Holds.setTile (hp : layout.Placed) (h : Holds layout s u)
    (ht : layout.sramAddr? t = some addr)
    (hval : ∀ i < t.type.words, elemAt u' addr.toNat i = c.getD i 0)
    (hoff : AgreeOff u u' addr.toNat t.type.words) : Holds layout (s.setTile t c) u' := by
  constructor
  · intro v a hv i hi
    by_cases hvt : v = t
    · subst hvt
      rw [hv] at ht
      cases ht
      rw [BodyState.setTile_self]
      exact hval i hi
    · rw [BodyState.setTile_ne s c hvt, ← h.sram v a hv i hi]
      by_cases hzero : t.type.words = 0
      · rw [agreeOff_eq_of_zero hoff hzero]
      · have hap := hp.sramApart v t a addr hvt hv ht (by omega) (by omega)
        exact hoff.elemAt_apart (Nat.le_refl _) hap hi
  · intro v a hv i hi
    rw [BodyState.setTile_ddr, ← h.ddr v a hv i hi]
    exact loadU16_congr (hoff _ (by intro b hb; cases hb)) (hoff _ (by intro b hb; cases hb))

/-- **One buffer changes.** -/
theorem Holds.setBuffer (hp : layout.Placed) (h : Holds layout s u)
    (hx : ddrBaseAddr layout x = some addr)
    (hval : ∀ i < x.type.words, ddrElem u' addr.toNat i = c.getD i 0)
    (hoff : AgreeOffBuffer u u' addr.toNat x.type.words) :
    Holds layout (s.setBuffer x c) u' := by
  constructor
  · intro v a hv i hi
    rw [BodyState.setBuffer_sram, ← h.sram v a hv i hi]
    exact hoff.elemAt_eq
  · intro v a hv i hi
    by_cases hvx : v = x
    · subst hvx
      rw [hv] at hx
      cases hx
      rw [BodyState.setBuffer_self]
      exact hval i hi
    · rw [BodyState.setBuffer_ne s c hvx, ← h.ddr v a hv i hi]
      by_cases hzero : x.type.words = 0
      · rw [hoff.eq_of_zero hzero]
      · refine hoff.ddrElem_eq ?_
        have hap := hp.ddrApart v x a addr hvx hv hx (by omega) (by omega)
        unfold ArraysApart at hap
        omega

/-- What lies in the command queue region is no part of the state. -/
theorem Holds.congr (hp : layout.Placed) (h : Holds layout s u)
    (hsram : ∀ a, u' (.sram a) = u (.sram a))
    (hddr : ∀ a, ddrStart.toNat ≤ a → u' (.ddr a) = u (.ddr a)) : Holds layout s u' := by
  constructor
  · intro v a hv i hi
    rw [← h.sram v a hv i hi]
    exact loadU16_congr (hsram _) (hsram _)
  · intro v a hv i hi
    rw [← h.ddr v a hv i hi]
    have hin := (hp.ddrIn v a hv (by omega)).2.1
    exact loadU16_congr (hddr _ (by omega)) (hddr _ (by omega))

end Frame

end EclipseNpu.Compiler

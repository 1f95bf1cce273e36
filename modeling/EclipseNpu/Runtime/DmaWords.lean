import EclipseNpu.Runtime.Easm

/-!
# Runtime — DmaWords

A DMA load as a list of word writes, row by row and left to right. On the
simulator's memory the list is `execDmaLoad` itself (`dmaLoad_eq_words`); a
memory of another size can apply the same list.
-/

namespace EclipseNpu.Runtime

open EclipseNpu.Lib

/-- The words a load writes: SRAM word address and contents. -/
def rowWords (p : DMAParam) (rd : Nat → UInt8) (i : Nat) : List (Nat × UInt16) :=
  (List.range p.cols.toNat).map fun j =>
    ((p.loadDst i).toNat / 2 + j, loadU16 rd ((p.loadSrc i).toNat + 2 * j))

def dmaLoadWords (p : DMAParam) (rd : Nat → UInt8) : List (Nat × UInt16) :=
  (List.range p.rows.toNat).flatMap (rowWords p rd)

/-- One word write. -/
def CModel.storeWord (s : CModel) (w : Nat × UInt16) : CModel :=
  s.storeSram (w.1 * 2) (u16Bytes w.2)

/-- A word read and written back is its two bytes. -/
theorem u16Bytes_loadU16 (rd : Nat → UInt8) (a : Nat) :
    u16Bytes (loadU16 rd a) = [rd a, rd (a + 1)] := by
  have h0 := (rd a).toNat_lt
  have h1 := (rd (a + 1)).toNat_lt
  have hw : (loadU16 rd a).toNat = (rd a).toNat + 256 * (rd (a + 1)).toNat := by
    rw [loadU16, UInt16.toNat_ofNat', Nat.mod_eq_of_lt (by omega)]
  rw [u16Bytes, hw]
  congr 1
  · apply UInt8.toNat.inj
    rw [UInt8.toNat_ofNat']
    omega
  · congr 1
    apply UInt8.toNat.inj
    rw [UInt8.toNat_ofNat']
    omega

/-- One more word of a row. -/
theorem copyToSram_succ (s : CModel) (b src n : Nat) :
    s.copyToSram (b * 2) src ((n + 1) * 2)
      = (s.copyToSram (b * 2) src (n * 2)).storeWord
          (b + n, loadU16 s.ddrByte (src + 2 * n)) := by
  funext l
  cases l with
  | ddr a => rfl
  | sram a =>
      rw [CModel.storeWord, u16Bytes_loadU16]
      show (if b * 2 ≤ a ∧ a < b * 2 + (n + 1) * 2 then _ else _)
        = if (b + n) * 2 ≤ a ∧ a < (b + n) * 2 + 2 then _
          else if b * 2 ≤ a ∧ a < b * 2 + n * 2 then _ else _
      by_cases hlast : (b + n) * 2 ≤ a ∧ a < (b + n) * 2 + 2
      · rw [if_pos (by omega), if_pos hlast]
        obtain rfl | rfl : a = (b + n) * 2 ∨ a = (b + n) * 2 + 1 := by omega
        · rw [Nat.sub_self]
          show s _ = s _
          congr 2
          omega
        · rw [Nat.add_sub_cancel_left]
          show s _ = s _
          congr 2
          omega
      · rw [if_neg hlast]
        by_cases hin : b * 2 ≤ a ∧ a < b * 2 + n * 2
        · rw [if_pos (by omega), if_pos hin]
        · rw [if_neg (by omega), if_neg hin]

/-- A `memcpy` of `n` words is `n` word writes. -/
theorem copyToSram_words (s : CModel) (b src n : Nat) :
    s.copyToSram (b * 2) src (n * 2)
      = ((List.range n).map fun j =>
          (b + j, loadU16 s.ddrByte (src + 2 * j))).foldl CModel.storeWord s := by
  induction n with
  | zero =>
      funext l
      cases l with
      | ddr a => rfl
      | sram a => exact if_neg (by omega)
  | succ n ih =>
      rw [copyToSram_succ, ih, List.range_succ, List.map_append, List.foldl_append]
      rfl

theorem storeWord_ddr (s : CModel) (ws : List (Nat × UInt16)) (a : Nat) :
    ws.foldl CModel.storeWord s (.ddr a) = s (.ddr a) := by
  induction ws generalizing s with
  | nil => rfl
  | cons w ws ih => exact ih (s.storeWord w)

/-- **`execDmaLoad` is its word writes**, for an even tile address and an even
tile stride. -/
theorem dmaLoad_eq_words {p : DMAParam} {s s' : CModel}
    (hsram : p.sramAddr.toNat % 2 = 0) (hstride : p.dstStride.toNat % 2 = 0)
    (h : dmaLoad p s = .ok s') :
    s' = (dmaLoadWords p s.ddrByte).foldl CModel.storeWord s := by
  obtain ⟨u, -, h⟩ := bind_ok h
  refine forLoop_inv (fun i t => t = ((List.range i).flatMap
    (rowWords p s.ddrByte)).foldl CModel.storeWord s) rfl (fun i hi t t' ht hrow => ?_) h
  obtain ⟨-, rfl⟩ := dmaLoadRow_ok_iff.mp hrow
  have heven : (p.loadDst i).toNat / 2 * 2 = (p.loadDst i).toNat := by
    have hmul : (p.dstStride * UInt32.ofNat i).toNat % 2 = 0 := by
      rw [UInt32.toNat_mul]
      have : p.dstStride.toNat * (UInt32.ofNat i).toNat % 2 = 0 := by
        rw [Nat.mul_mod, hstride, Nat.zero_mul]
      omega
    have : (p.loadDst i).toNat % 2 = 0 := by
      rw [DMAParam.loadDst, UInt32.toNat_add]
      omega
    omega
  have hddr : t.ddrByte = s.ddrByte := by
    funext a
    rw [ht]
    exact storeWord_ddr _ _ a
  have hrowEq := copyToSram_words t ((p.loadDst i).toNat / 2) (p.loadSrc i).toNat
    p.cols.toNat
  rw [heven, hddr] at hrowEq
  rw [hrowEq, List.range_succ, List.flatMap_append, List.foldl_append, ← ht,
    List.flatMap_cons, List.flatMap_nil, List.append_nil]
  rfl

end EclipseNpu.Runtime

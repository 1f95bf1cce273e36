import EclipseNpu.Runtime.Footprints

/-!
# Runtime — RangeChecks

Which accesses of the simulator its assertions do not stop. `CModel::sram`
and `CModel::ddr` check the first address of an access; the rest of a
descriptor, of a DMA row, of a 2-byte element or of a 4-byte index may lie
behind the end of the vector. `exec_inBounds_iff` says for which instructions
that cannot happen.
-/

namespace EclipseNpu.Runtime

open EclipseNpu.Lib

/-! ## What has to fit -/

/-- A packed array of `n` elements of `size` bytes ends inside SRAM. -/
def ArrayFits (base : UInt32) (n size : Nat) : Prop :=
  n = 0 ∨ base.toNat + n * size ≤ sramEnd

/-- Both sides of row `i` of a load end inside their memories. -/
def DMAParam.LoadRowFits (p : DMAParam) (i : Nat) : Prop :=
  p.cols.toNat = 0 ∨ ((p.loadSrc i).toNat + p.cols.toNat * 2 ≤ ddrEnd
    ∧ (p.loadDst i).toNat + p.cols.toNat * 2 ≤ sramEnd)

def DMAParam.StoreRowFits (p : DMAParam) (i : Nat) : Prop :=
  p.cols.toNat = 0 ∨ ((p.storeSrc i).toNat + p.cols.toNat * 2 ≤ sramEnd
    ∧ (p.storeDst i).toNat + p.cols.toNat * 2 ≤ ddrEnd)

/-- The rows of a store from row `i` on, each under the descriptor that the
rows before it left in memory. -/
def StoreRowsFit (descPtr : UInt32) : Nat → Nat → CModel → Prop
  | 0, _, _ => True
  | fuel + 1, i, s =>
      let p := DMAParam.load s.ddrByte descPtr.toNat
      i < p.rows.toNat → p.StoreRowFits i
        ∧ StoreRowsFit descPtr fuel (i + 1) (s.copyToDdr (p.storeDst i).toNat
          (p.storeSrc i).toNat (p.cols.toNat * 2))

/-- The tiles of a product with at least one output element. -/
def MatmulParam.Fits (p : MatmulParam) : Prop :=
  p.M.toNat = 0 ∨ p.N.toNat = 0
    ∨ (ArrayFits p.lhsAddr (p.M.toNat * p.K.toNat) 2
      ∧ ArrayFits p.rhsAddr (p.K.toNat * p.N.toNat) 2
      ∧ ArrayFits p.dstAddr (p.M.toNat * p.N.toNat) 2)

/-- lhs and dst are packed; no rhs element starts at the last byte. -/
def EwiseParam.Fits (p : EwiseParam) : Prop :=
  ArrayFits p.lhsAddr (p.rows * p.cols).toNat 2
    ∧ ArrayFits p.dstAddr (p.rows * p.cols).toNat 2
    ∧ ∀ i < (p.rows * p.cols).toNat, (p.rhsElem i).toNat + 2 ≤ sramEnd

def ActParam.Fits (p : ActParam) : Prop :=
  ArrayFits p.srcAddr p.n.toNat 2 ∧ ArrayFits p.dstAddr p.n.toNat 2

def ReduceParam.Fits (p : ReduceParam) : Prop :=
  ArrayFits p.srcAddr (p.rows.toNat * p.cols.toNat) 2
    ∧ ArrayFits p.dstAddr p.rows.toNat 2
    ∧ (p.kind = ReduceKind.ARGMAX.toU32 → ArrayFits p.idxAddr p.rows.toNat 4)

/-- The struct at `descPtr` ends inside DDR, and the fields it holds satisfy
`P`. -/
def DescFits {α : Type} (load : (Nat → UInt8) → Nat → α) (size : Nat)
    (descPtr : UInt32) (s : CModel) (P : α → Prop) : Prop :=
  descPtr.toNat + size ≤ ddrEnd ∧ P (load s.ddrByte descPtr.toNat)

/-- **The condition on an instruction and the memory it runs on.** -/
def AccessesFit (inst : Instruction) (s : CModel) : Prop :=
  match inst.opcode with
  | .DMA_LOAD => DescFits DMAParam.load 24 inst.descPtr s fun p =>
      ∀ i < p.rows.toNat, p.LoadRowFits i
  | .DMA_STORE => DescFits DMAParam.load 24 inst.descPtr s fun _ =>
      StoreRowsFit inst.descPtr (2 ^ 32) 0 s
  | .MATMUL => DescFits MatmulParam.load 32 inst.descPtr s MatmulParam.Fits
  | .ELEMENTWISE_ADD | .ELEMENTWISE_SUB | .ELEMENTWISE_MUL | .ELEMENTWISE_DIV =>
      DescFits EwiseParam.load 28 inst.descPtr s EwiseParam.Fits
  | .ACT => DescFits ActParam.load 32 inst.descPtr s ActParam.Fits
  | .REDUCE => DescFits ReduceParam.load 24 inst.descPtr s ReduceParam.Fits
  | .SYNC => True

/-! ## Single accesses -/

/-- The access does not run past the end of a vector. -/
def InBounds {α : Type} (r : Except Fault α) : Prop := r ≠ .error .outOfBounds

theorem assert_inBounds (c : Bool) (msg : String) : InBounds (eclipseAssert c msg) := by
  cases c <;> exact fun h => by cases h

theorem sram_inBounds (addr : UInt32) : InBounds (CModel.sram addr) :=
  bind_ne_error (assert_inBounds _ _) fun _ _ h => by cases h

theorem ddr_inBounds (addr : UInt32) : InBounds (CModel.ddr addr) :=
  bind_ne_error (assert_inBounds _ _) fun _ _ h => by cases h

theorem sramSpan_inBounds {p n : Nat} (h : n = 0 ∨ p + n ≤ sramEnd) :
    InBounds (sramSpan p n) := by
  rw [sramSpan, if_pos h]
  exact fun h => by cases h

theorem ddrSpan_inBounds {p n : Nat} (h : n = 0 ∨ p + n ≤ ddrEnd) :
    InBounds (ddrSpan p n) := by
  rw [ddrSpan, if_pos h]
  exact fun h => by cases h

variable {F : Type} [Fp32 F]

theorem readFP16_inBounds {addr : UInt32} {s : CModel} (h : addr.toNat + 2 ≤ sramEnd) :
    InBounds (readFP16 F addr s) := by
  refine bind_ne_error (sram_inBounds addr) fun p hp => ?_
  obtain ⟨rfl, -⟩ := sram_ok_iff.mp hp
  exact bind_ne_error (sramSpan_inBounds (.inr h)) fun _ _ h => by cases h

theorem writeFP16_inBounds {addr : UInt32} {v : F} {s : CModel}
    (h : addr.toNat + 2 ≤ sramEnd) : InBounds (writeFP16 addr v s) := by
  refine bind_ne_error (sram_inBounds addr) fun p hp => ?_
  obtain ⟨rfl, -⟩ := sram_ok_iff.mp hp
  exact bind_ne_error (sramSpan_inBounds (.inr h)) fun _ _ h => by cases h

/-! ## Packed arrays -/

/-- The address of element `o`, as the executor computes it. -/
def elemAddr (base : UInt32) (o : Nat) (size : Nat) : Nat :=
  (base.toNat + o * size) % 4294967296

/-- An element of an array that fits stands where unbounded arithmetic puts
it, and ends inside SRAM. -/
theorem ArrayFits.elem {base : UInt32} {n size o : Nat} (h : ArrayFits base n size)
    (ho : o < n) : elemAddr base o size + size ≤ sramEnd := by
  have hle : (o + 1) * size ≤ n * size := Nat.mul_le_mul_right _ ho
  rw [Nat.succ_mul] at hle
  rcases h with h | h
  · omega
  · have hend := sramEnd_eq
    have hmod := Nat.mod_le (base.toNat + o * size) 4294967296
    unfold elemAddr
    omega

/-- When every element ends inside SRAM the array does: the next element
stands right behind one that ends inside, so its address has not wrapped. -/
theorem arrayFits_of_elems {base : UInt32} {n size : Nat}
    (h : ∀ o < n, elemAddr base o size + size ≤ sramEnd) : ArrayFits base n size := by
  induction n with
  | zero => exact .inl rfl
  | succ n ih =>
      refine .inr ?_
      have hend := sramEnd_eq
      have hlast := h n (by omega)
      have hbase := base.toNat_lt
      rw [Nat.succ_mul]
      unfold elemAddr at hlast
      rcases ih fun o ho => h o (by omega) with rfl | hfit
      · rw [Nat.zero_mul, Nat.add_zero, Nat.mod_eq_of_lt hbase] at hlast
        omega
      · rw [Nat.mod_eq_of_lt (by omega)] at hlast
        omega

theorem packedElem_toNat (base : UInt32) (o : Nat) :
    (packedElem base o).toNat = elemAddr base o 2 := by
  rw [packedElem, UInt32.toNat_add, UInt32.toNat_mul, UInt32.toNat_ofNat', elemAddr,
    show DTYPE_SIZE.toNat = 2 from rfl, Nat.mod_mul_mod, Nat.add_mod_mod]

theorem ArrayFits.packed {base : UInt32} {n o : Nat} (h : ArrayFits base n 2)
    (ho : o < n) : (packedElem base o).toNat + 2 ≤ sramEnd := by
  rw [packedElem_toNat]
  exact h.elem ho

theorem arrayFits_of_packed {base : UInt32} {n : Nat}
    (h : ∀ o < n, (packedElem base o).toNat + 2 ≤ sramEnd) : ArrayFits base n 2 :=
  arrayFits_of_elems fun o ho => by
    rw [← packedElem_toNat]
    exact h o ho

/-- Flat indices of a matrix, and back. -/
theorem flat_exists {o m n : Nat} (h : o < m * n) :
    ∃ i < m, ∃ j < n, o = i * n + j := by
  obtain ⟨hi, hj, ho⟩ := flat_split h
  exact ⟨o / n, hi, o % n, hj, ho.symm⟩

section Matmul

variable {p : MatmulParam}

theorem lhsElem_eq (m k : Nat) : p.lhsElem m k = packedElem p.lhsAddr
    (if p.transA then k * p.M.toNat + m else m * p.K.toNat + k) := by
  rw [MatmulParam.lhsElem, packedElem, MatmulParam.lhsOff]
  split <;> simp

theorem rhsElem_eq (k n : Nat) : p.rhsElem k n = packedElem p.rhsAddr
    (if p.transB then n * p.K.toNat + k else k * p.N.toNat + n) := by
  rw [MatmulParam.rhsElem, packedElem, MatmulParam.rhsOff]
  split <;> simp

theorem dstElem_eq (m n : Nat) :
    p.dstElem m n = packedElem p.dstAddr (m * p.N.toNat + n) := by
  simp [MatmulParam.dstElem, packedElem]

end Matmul

theorem srcElem_eq {p : ReduceParam} (i j : Nat) :
    p.srcElem i j = packedElem p.srcAddr (i * p.cols.toNat + j) := by
  simp [ReduceParam.srcElem, ReduceParam.rowAddr, packedElem, UInt32.add_mul,
    UInt32.add_assoc]

/-! ## The executors -/

section Executors

variable {s s' : CModel}

theorem dmaLoad_inBounds {p : DMAParam} (h : ∀ i < p.rows.toNat, p.LoadRowFits i) :
    InBounds (dmaLoad p s) := by
  refine bind_ne_error (assert_inBounds _ _) fun _ _ => forLoop_ne_error fun i hi t => ?_
  refine bind_ne_error (ddr_inBounds _) fun src hsrc =>
    bind_ne_error (sram_inBounds _) fun dst hdst => ?_
  obtain ⟨rfl, -⟩ := ddr_ok_iff.mp hsrc
  obtain ⟨rfl, -⟩ := sram_ok_iff.mp hdst
  have hrow := h i hi
  unfold DMAParam.LoadRowFits at hrow
  exact bind_ne_error (ddrSpan_inBounds (by omega)) fun _ _ =>
    bind_ne_error (sramSpan_inBounds (by omega)) fun _ _ h => by cases h

theorem loadRowFits_of_ok {p : DMAParam} (h : dmaLoad p s = .ok s') :
    ∀ i < p.rows.toNat, p.LoadRowFits i := by
  intro i hi
  obtain ⟨_, -, h⟩ := bind_ok h
  obtain ⟨t, t', hrow⟩ := forLoop_iteration h hi
  obtain ⟨⟨⟨-, -, hsrc⟩, ⟨-, -, hdst⟩⟩, -⟩ := dmaLoadRow_ok_iff.mp hrow
  unfold DMAParam.LoadRowFits
  omega

theorem dmaStoreRow_inBounds {p : DMAParam} {i : Nat} (h : p.StoreRowFits i) :
    InBounds (dmaStoreRow p i s) := by
  refine bind_ne_error (sram_inBounds _) fun src hsrc =>
    bind_ne_error (ddr_inBounds _) fun dst hdst => ?_
  obtain ⟨rfl, -⟩ := sram_ok_iff.mp hsrc
  obtain ⟨rfl, -⟩ := ddr_ok_iff.mp hdst
  unfold DMAParam.StoreRowFits at h
  exact bind_ne_error (sramSpan_inBounds (by omega)) fun _ _ =>
    bind_ne_error (ddrSpan_inBounds (by omega)) fun _ _ h => by cases h

theorem readDesc_inBounds {α : Type} {load : (Nat → UInt8) → Nat → α} {size : Nat}
    {descPtr : UInt32} (h : descPtr.toNat + size ≤ ddrEnd) :
    InBounds (readDesc load size descPtr s) := by
  refine bind_ne_error (ddr_inBounds _) fun p hp => ?_
  obtain ⟨rfl, -⟩ := ddr_ok_iff.mp hp
  exact bind_ne_error (ddrSpan_inBounds (.inr h)) fun _ _ h => by cases h

/-- The rows of a store: each iteration reads the descriptor, which still ends
inside DDR, and moves one row. -/
theorem dmaStoreRows_inBounds {d : UInt32} (hd : d.toNat + 24 ≤ ddrEnd) :
    ∀ {fuel i : Nat} {s : CModel}, StoreRowsFit d fuel i s →
      InBounds (dmaStoreRows d fuel i s) := by
  intro fuel
  induction fuel with
  | zero => intro i s _ h; cases h
  | succ fuel ih =>
      intro i s hfit
      refine bind_ne_error (readDesc_inBounds hd) fun p hp => ?_
      obtain ⟨-, rfl⟩ := readDesc_ok_iff.mp hp
      split
      · rename_i hi
        obtain ⟨hrow, hrest⟩ := hfit hi
        refine bind_ne_error (dmaStoreRow_inBounds hrow) fun t ht => ?_
        obtain ⟨-, rfl⟩ := dmaStoreRow_ok_iff.mp ht
        exact ih hrest
      · exact fun h => by cases h

theorem storeRowsFit_of_ok {d : UInt32} :
    ∀ {fuel i : Nat} {s s' : CModel}, dmaStoreRows d fuel i s = .ok s' →
      StoreRowsFit d fuel i s := by
  intro fuel
  induction fuel with
  | zero => intro i s s' _; trivial
  | succ fuel ih =>
      intro i s s' h hi
      obtain ⟨p, hp, h⟩ := bind_ok h
      obtain ⟨-, rfl⟩ := readDesc_ok_iff.mp hp
      rw [if_pos hi] at h
      obtain ⟨t, ht, h⟩ := bind_ok h
      obtain ⟨⟨⟨-, -, hsrc⟩, ⟨-, -, hdst⟩⟩, rfl⟩ := dmaStoreRow_ok_iff.mp ht
      refine ⟨?_, ih h⟩
      unfold DMAParam.StoreRowFits
      omega

theorem matmul_inBounds {p : MatmulParam} (h : p.Fits) : InBounds (matmul F p s) := by
  refine bind_ne_error (assert_inBounds _ _) fun _ _ => forLoop_ne_error fun m hm t =>
    forLoop_ne_error fun n hn t => ?_
  obtain ⟨hlhs, hrhs, hdst⟩ := (h.resolve_left (by omega)).resolve_left (by omega)
  have hcell : (p.dstElem m n).toNat + 2 ≤ sramEnd := by
    rw [dstElem_eq]
    exact hdst.packed (flat_lt hm hn)
  refine bind_ne_error (bind_ne_error (forLoop_ne_error fun k hk acc => ?_)
    fun acc _ => ?_) fun acc _ => writeFP16_inBounds hcell
  · have hl : (p.lhsElem m k).toNat + 2 ≤ sramEnd := by
      rw [lhsElem_eq]
      refine hlhs.packed ?_
      split
      · rw [Nat.mul_comm p.M.toNat]
        exact flat_lt hk hm
      · exact flat_lt hm hk
    have hr : (p.rhsElem k n).toNat + 2 ≤ sramEnd := by
      rw [rhsElem_eq]
      refine hrhs.packed ?_
      split
      · rw [Nat.mul_comm p.K.toNat]
        exact flat_lt hn hk
      · exact flat_lt hk hn
    exact bind_ne_error (readFP16_inBounds hl) fun _ _ =>
      bind_ne_error (readFP16_inBounds hr) fun _ _ h => by cases h
  · split
    · exact bind_ne_error (readFP16_inBounds hcell) fun _ _ h => by cases h
    · exact fun h => by cases h

/-- All elements of a finished product ended inside SRAM. -/
theorem matmul_elems_of_ok {p : MatmulParam} (h : matmul F p s = .ok s') {m n : Nat}
    (hm : m < p.M.toNat) (hn : n < p.N.toNat) :
    (∀ k < p.K.toNat, (p.lhsElem m k).toNat + 2 ≤ sramEnd
        ∧ (p.rhsElem k n).toNat + 2 ≤ sramEnd)
      ∧ (p.dstElem m n).toNat + 2 ≤ sramEnd := by
  obtain ⟨_, -, h⟩ := bind_ok h
  obtain ⟨t, t', h⟩ := forLoop_iteration h hm
  obtain ⟨t, t', h⟩ := forLoop_iteration h hn
  obtain ⟨acc, hacc, hwrite⟩ := bind_ok h
  obtain ⟨acc', hmacs, -⟩ := bind_ok hacc
  refine ⟨fun k hk => ?_, ((writeFP16_ok_iff F).mp hwrite).1.2⟩
  obtain ⟨a, a', hmac⟩ := forLoop_iteration hmacs hk
  obtain ⟨l, hl, hmac⟩ := bind_ok hmac
  obtain ⟨r, hr, -⟩ := bind_ok hmac
  exact ⟨((readFP16_ok_iff F).mp hl).1.2, ((readFP16_ok_iff F).mp hr).1.2⟩

theorem matmulFits_of_ok {p : MatmulParam} (h : matmul F p s = .ok s') : p.Fits := by
  by_cases hM : p.M.toNat = 0
  · exact .inl hM
  by_cases hN : p.N.toNat = 0
  · exact .inr (.inl hN)
  refine .inr (.inr ⟨arrayFits_of_packed fun o ho => ?_,
    arrayFits_of_packed fun o ho => ?_, arrayFits_of_packed fun o ho => ?_⟩)
  · by_cases ht : p.transA = true
    · rw [Nat.mul_comm] at ho
      obtain ⟨k, hk, m, hm, rfl⟩ := flat_exists ho
      have := ((matmul_elems_of_ok h hm (n := 0) (by omega)).1 k hk).1
      rwa [lhsElem_eq, if_pos ht] at this
    · obtain ⟨m, hm, k, hk, rfl⟩ := flat_exists ho
      have := ((matmul_elems_of_ok h hm (n := 0) (by omega)).1 k hk).1
      rwa [lhsElem_eq, if_neg ht] at this
  · by_cases ht : p.transB = true
    · rw [Nat.mul_comm] at ho
      obtain ⟨n, hn, k, hk, rfl⟩ := flat_exists ho
      have := ((matmul_elems_of_ok h (m := 0) (by omega) hn).1 k hk).2
      rwa [rhsElem_eq, if_pos ht] at this
    · obtain ⟨k, hk, n, hn, rfl⟩ := flat_exists ho
      have := ((matmul_elems_of_ok h (m := 0) (by omega) hn).1 k hk).2
      rwa [rhsElem_eq, if_neg ht] at this
  · obtain ⟨m, hm, n, hn, rfl⟩ := flat_exists ho
    have := (matmul_elems_of_ok h hm hn).2
    rwa [dstElem_eq] at this

theorem elementwise_inBounds {p : EwiseParam} {op : EwiseOp} (h : p.Fits) :
    InBounds (elementwise F p op s) := by
  obtain ⟨hlhs, hdst, hrhs⟩ := h
  refine bind_ne_error (assert_inBounds _ _) fun _ _ =>
    bind_ne_error (assert_inBounds _ _) fun _ _ => forLoop_ne_error fun i hi t => ?_
  refine bind_ne_error (bind_ne_error (readFP16_inBounds (hlhs.packed hi)) fun lhs _ =>
    bind_ne_error (readFP16_inBounds (hrhs i hi)) fun rhs _ => ?_) fun v _ =>
    writeFP16_inBounds (hdst.packed hi)
  split
  · exact bind_ne_error (assert_inBounds _ _) fun _ _ h => by cases h
  · exact fun h => by cases h

theorem ewiseFits_of_ok {p : EwiseParam} {op : EwiseOp}
    (h : elementwise F p op s = .ok s') : p.Fits := by
  obtain ⟨_, -, h⟩ := bind_ok h
  obtain ⟨_, -, h⟩ := bind_ok h
  have hcell : ∀ i < (p.rows * p.cols).toNat,
      (packedElem p.lhsAddr i).toNat + 2 ≤ sramEnd
        ∧ (p.rhsElem i).toNat + 2 ≤ sramEnd
        ∧ (packedElem p.dstAddr i).toNat + 2 ≤ sramEnd := by
    intro i hi
    obtain ⟨t, t', h⟩ := forLoop_iteration h hi
    obtain ⟨v, hv, hwrite⟩ := bind_ok h
    obtain ⟨l, hl, hv⟩ := bind_ok hv
    obtain ⟨r, hr, -⟩ := bind_ok hv
    exact ⟨((readFP16_ok_iff F).mp hl).1.2, ((readFP16_ok_iff F).mp hr).1.2,
      ((writeFP16_ok_iff F).mp hwrite).1.2⟩
  exact ⟨arrayFits_of_packed fun i hi => (hcell i hi).1,
    arrayFits_of_packed fun i hi => (hcell i hi).2.2, fun i hi => (hcell i hi).2.1⟩

theorem act_inBounds {p : ActParam} (h : p.Fits) : InBounds (act F p s) := by
  unfold act
  split
  · exact forLoop_ne_error fun i hi t => bind_ne_error
      (readFP16_inBounds (h.1.packed hi)) fun v _ => writeFP16_inBounds (h.2.packed hi)
  · exact fun h => by cases h

theorem actFits_of_ok {p : ActParam} (h : act F p s = .ok s') : p.Fits := by
  unfold act at h
  split at h
  · have hcell : ∀ i < p.n.toNat, (packedElem p.srcAddr i).toNat + 2 ≤ sramEnd
        ∧ (packedElem p.dstAddr i).toNat + 2 ≤ sramEnd := by
      intro i hi
      obtain ⟨t, t', h⟩ := forLoop_iteration h hi
      obtain ⟨v, hv, hwrite⟩ := bind_ok h
      exact ⟨((readFP16_ok_iff F).mp hv).1.2, ((writeFP16_ok_iff F).mp hwrite).1.2⟩
    exact ⟨arrayFits_of_packed fun i hi => (hcell i hi).1,
      arrayFits_of_packed fun i hi => (hcell i hi).2⟩
  · cases h

/-- The address of the index of row `i`. -/
theorem idxPlace_toNat (base : UInt32) (i : Nat) :
    (base + UInt32.ofNat i * 4).toNat = elemAddr base i 4 := by
  rw [UInt32.toNat_add, UInt32.toNat_mul, UInt32.toNat_ofNat', elemAddr,
    show (4 : UInt32).toNat = 4 from rfl, Nat.mod_mul_mod, Nat.add_mod_mod]

theorem rowAddr_eq (p : ReduceParam) (i : Nat) : p.rowAddr i = p.srcElem i 0 := by
  simp [ReduceParam.srcElem]

theorem reduceCell_inBounds {p : ReduceParam} {kind : ReduceKind} {i : Nat}
    (hk : kind = .ARGMAX → p.kind = ReduceKind.ARGMAX.toU32)
    (h : p.Fits) (hcols : 0 < p.cols.toNat) (hi : i < p.rows.toNat) :
    InBounds (reduceCell F p kind i s) := by
  obtain ⟨hsrc, hdst, hidx⟩ := h
  have helem : ∀ j < p.cols.toNat, (p.srcElem i j).toNat + 2 ≤ sramEnd := fun j hj => by
    rw [srcElem_eq]
    exact hsrc.packed (flat_lt hi hj)
  refine bind_ne_error (bind_ne_error (readFP16_inBounds ?_) fun x _ =>
    forLoop_ne_error fun j hj acc => bind_ne_error (readFP16_inBounds
      (helem (j + 1) (by omega))) fun _ _ h => by cases h) fun r _ =>
    bind_ne_error (writeFP16_inBounds (hdst.packed hi)) fun t _ => ?_
  · rw [rowAddr_eq]
    exact helem 0 hcols
  · split
    · rename_i hargmax
      have hplace := (hidx (hk hargmax)).elem hi
      rw [← idxPlace_toNat] at hplace
      refine bind_ne_error (sram_inBounds _) fun q hq => ?_
      obtain ⟨rfl, -⟩ := sram_ok_iff.mp hq
      exact bind_ne_error (sramSpan_inBounds (.inr hplace)) fun _ _ h => by cases h
    · exact fun h => by cases h

theorem reduce_inBounds {p : ReduceParam} (h : p.Fits) : InBounds (reduce F p s) := by
  refine bind_ne_error (assert_inBounds _ _) fun _ hne =>
    bind_ne_error (assert_inBounds _ _) fun _ _ => ?_
  have hcols : 0 < p.cols.toNat := by
    have := assert_ok_iff.mp hne
    simp only [Bool.and_eq_true, bne_iff_ne, ne_eq] at this
    have hz := mt UInt32.toNat_inj.mp this.2
    simp only [UInt32.toNat_zero] at hz
    omega
  split
  · rename_i kind hkind
    refine forLoop_ne_error fun i hi t => reduceCell_inBounds ?_ h hcols hi
    rintro rfl
    exact ReduceKind.ofU32?_eq_some hkind
  · exact fun h => by cases h

theorem reduceFits_of_ok {p : ReduceParam} (h : reduce F p s = .ok s') : p.Fits := by
  obtain ⟨_, -, h⟩ := bind_ok h
  obtain ⟨_, -, h⟩ := bind_ok h
  split at h
  · rename_i kind hkind
    have hcell : ∀ i < p.rows.toNat,
        (∀ j < p.cols.toNat, (p.srcElem i j).toNat + 2 ≤ sramEnd)
          ∧ (packedElem p.dstAddr i).toNat + 2 ≤ sramEnd
          ∧ (kind = .ARGMAX → elemAddr p.idxAddr i 4 + 4 ≤ sramEnd) := by
      intro i hi
      obtain ⟨t, t', h⟩ := forLoop_iteration h hi
      obtain ⟨r, hrow, hwrite⟩ := bind_ok h
      obtain ⟨x, hx, hloop⟩ := bind_ok hrow
      obtain ⟨u, hu, hidx⟩ := bind_ok hwrite
      refine ⟨fun j hj => ?_, ((writeFP16_ok_iff F).mp hu).1.2, fun hargmax => ?_⟩
      · cases j with
        | zero =>
            rw [← rowAddr_eq]
            exact ((readFP16_ok_iff F).mp hx).1.2
        | succ j =>
            obtain ⟨a, a', hstep⟩ := forLoop_iteration hloop (i := j) (by omega)
            obtain ⟨y, hy, -⟩ := bind_ok hstep
            exact ((readFP16_ok_iff F).mp hy).1.2
      · rw [if_pos hargmax] at hidx
        obtain ⟨q, hq, hidx⟩ := bind_ok hidx
        obtain ⟨_, hspan, -⟩ := bind_ok hidx
        obtain ⟨rfl, -⟩ := sram_ok_iff.mp hq
        rw [← idxPlace_toNat]
        have := sramSpan_ok_iff.mp hspan
        omega
    refine ⟨arrayFits_of_packed fun o ho => ?_,
      arrayFits_of_packed fun i hi => (hcell i hi).2.1, fun hk =>
      arrayFits_of_elems fun i hi => (hcell i hi).2.2 ?_⟩
    · obtain ⟨i, hi, j, hj, rfl⟩ := flat_exists ho
      rw [← srcElem_eq]
      exact (hcell i hi).1 j hj
    · rw [hk] at hkind
      exact (Option.some.inj hkind).symm
  · cases h

/-- The struct itself. -/
theorem readDesc_bind_inBounds {α : Type} {load : (Nat → UInt8) → Nat → α}
    {size : Nat} {d : UInt32} {P : α → Prop} {run : α → Except Fault CModel}
    (h : DescFits load size d s P) (hrun : ∀ p, P p → InBounds (run p)) :
    InBounds (readDesc load size d s >>= run) := by
  refine bind_ne_error (readDesc_inBounds h.1) fun p hp => ?_
  obtain ⟨-, rfl⟩ := readDesc_ok_iff.mp hp
  exact hrun _ h.2

theorem descFits_of_ok {α : Type} {load : (Nat → UInt8) → Nat → α} {size : Nat}
    {d : UInt32} {P : α → Prop} {run : α → Except Fault CModel}
    (hsize : size ≠ 0) (h : readDesc load size d s >>= run = .ok s')
    (hrun : ∀ p, run p = .ok s' → P p) : DescFits load size d s P := by
  obtain ⟨p, hp, h⟩ := bind_ok h
  obtain ⟨⟨-, -, hspan⟩, rfl⟩ := readDesc_ok_iff.mp hp
  exact ⟨hspan.resolve_left hsize, hrun _ h⟩

end Executors

/-- **When the range assertions are enough.** An instruction that fails no
assertion stays inside both memories exactly when its descriptor ends inside
DDR, its rows end inside their memories, its packed arrays end inside SRAM,
and no broadcast rhs element starts at the last byte. -/
theorem exec_inBounds_iff {inst : Instruction} {s : CModel}
    (h : ∀ msg, exec F inst s ≠ .error (.assertion msg)) :
    exec F inst s ≠ .error .outOfBounds ↔ AccessesFit inst s := by
  obtain ⟨opcode, d⟩ := inst
  constructor
  · intro hin
    obtain ⟨s', hok⟩ : ∃ s', exec F ⟨opcode, d⟩ s = .ok s' := by
      cases hr : exec F ⟨opcode, d⟩ s with
      | ok s' => exact ⟨s', rfl⟩
      | error e =>
          cases e with
          | assertion msg => exact absurd hr (h msg)
          | outOfBounds => exact absurd hr hin
    cases opcode with
    | DMA_LOAD => exact descFits_of_ok (by decide) hok fun p => loadRowFits_of_ok
    | DMA_STORE =>
        show DescFits DMAParam.load 24 d s fun _ => StoreRowsFit d (2 ^ 32) 0 s
        refine descFits_of_ok (by decide) hok fun p hp => ?_
        obtain ⟨_, -, hp⟩ := bind_ok hp
        exact storeRowsFit_of_ok hp
    | MATMUL => exact descFits_of_ok (by decide) hok fun p => matmulFits_of_ok
    | ELEMENTWISE_ADD => exact descFits_of_ok (by decide) hok fun p => ewiseFits_of_ok
    | ELEMENTWISE_SUB => exact descFits_of_ok (by decide) hok fun p => ewiseFits_of_ok
    | ELEMENTWISE_MUL => exact descFits_of_ok (by decide) hok fun p => ewiseFits_of_ok
    | ELEMENTWISE_DIV => exact descFits_of_ok (by decide) hok fun p => ewiseFits_of_ok
    | ACT => exact descFits_of_ok (by decide) hok fun p => actFits_of_ok
    | REDUCE => exact descFits_of_ok (by decide) hok fun p => reduceFits_of_ok
    | SYNC => trivial
  · intro hfit
    cases opcode with
    | DMA_LOAD =>
        have hfit : DescFits DMAParam.load 24 d s fun p =>
          ∀ i < p.rows.toNat, p.LoadRowFits i := hfit
        exact readDesc_bind_inBounds hfit fun p => dmaLoad_inBounds
    | DMA_STORE =>
        have hfit : DescFits DMAParam.load 24 d s fun _ =>
          StoreRowsFit d (2 ^ 32) 0 s := hfit
        exact readDesc_bind_inBounds hfit fun p hp =>
          bind_ne_error (assert_inBounds _ _) fun _ _ =>
            dmaStoreRows_inBounds hfit.1 hp
    | MATMUL => exact readDesc_bind_inBounds hfit fun p => matmul_inBounds
    | ELEMENTWISE_ADD => exact readDesc_bind_inBounds hfit fun p => elementwise_inBounds
    | ELEMENTWISE_SUB => exact readDesc_bind_inBounds hfit fun p => elementwise_inBounds
    | ELEMENTWISE_MUL => exact readDesc_bind_inBounds hfit fun p => elementwise_inBounds
    | ELEMENTWISE_DIV => exact readDesc_bind_inBounds hfit fun p => elementwise_inBounds
    | ACT => exact readDesc_bind_inBounds hfit fun p => act_inBounds
    | REDUCE => exact readDesc_bind_inBounds hfit fun p => reduce_inBounds
    | SYNC => exact fun h => by cases h

/-! ## A row at the end of SRAM -/

/-- A load of one row of `cols` elements to the last 16 bytes of SRAM. -/
def lastRow (cols : UInt32) : DMAParam :=
  { sramAddr := 0x1007FFF0, ddrAddr := 0x40010000, rows := 1, cols := cols
    srcStride := 0, dstStride := 0 }

def lastRowLoad : Instruction := ⟨.DMA_LOAD, 0x40000100⟩

/-- Zeroes, with that descriptor in DDR. -/
def lastRowMemory (cols : UInt32) : CModel :=
  CModel.storeDdr (fun _ => 0) 0x40000100 (lastRow cols).bytes

theorem outcome_lastRow :
    outcome (@exec Int Fp32.integers lastRowLoad (lastRowMemory 8)) = none
      ∧ outcome (@exec Int Fp32.integers lastRowLoad (lastRowMemory 9))
        = some .outOfBounds := by
  decide +kernel

theorem exec_inBounds_iff_lastRow : AccessesFit lastRowLoad (lastRowMemory 8) := by
  obtain ⟨s', h⟩ := exists_of_outcome outcome_lastRow.1
  exact (@exec_inBounds_iff Int Fp32.integers _ _ (by rw [h]; simp)).mp
    (by rw [h]; simp)

/-- **A row of 18 bytes in the last 16**: no assertion fails and the copy runs
past the end of SRAM. -/
theorem range_assertions_miss :
    ¬ ∀ (inst : Instruction) (s : CModel),
      (∀ msg, @exec Int Fp32.integers inst s ≠ .error (.assertion msg)) →
      @exec Int Fp32.integers inst s ≠ .error .outOfBounds := by
  intro h
  have hr := outcome_error outcome_lastRow.2
  exact h lastRowLoad (lastRowMemory 9) (by rw [hr]; simp) hr

end EclipseNpu.Runtime

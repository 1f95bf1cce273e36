import EclipseNpu.Rtl.DmaXbar

/-!
# Rtl — BankedSram

The SRAM of the simulator in the banks behind the crossbar. Loads that the engine
makes one after the other leave in the banks what `execDmaLoad` leaves in the
simulator, and a read that the crossbar grants returns it (`loads_readBack`).
-/

namespace EclipseNpu.Rtl

open EclipseNpu.Lib EclipseNpu.Runtime BankXbar

/-! ## The SRAM as a memory of words -/

/-- Word `w` of `sram_`. -/
def sramWord (s : CModel) (w : Nat) : BitVec 16 :=
  (loadU16 s.sramByte (SRAM_ADDR.toNat + 2 * w)).toBitVec

/-- A memory holds the first `2 ^ AW` words of `sram_`. -/
def HoldsSram {AW : Nat} (m : BitVec AW → BitVec 16) (s : CModel) : Prop :=
  ∀ a : BitVec AW, m a = sramWord s a.toNat

/-- Addresses, in words, of that part of `sram_`. -/
def InWindow (AW w : Nat) : Prop := 134217728 ≤ w ∧ w < 134217728 + 2 ^ AW

section Words

variable {AW : Nat} {m : BitVec AW → BitVec 16} {s : CModel}

theorem sramWord_storeWord (s : CModel) (x : UInt16) (v w : Nat) :
    sramWord (s.storeWord (134217728 + v, x)) w
      = if w = v then x.toBitVec else sramWord s w := by
  have hbase : SRAM_ADDR.toNat = 268435456 := rfl
  have haddr : (134217728 + v) * 2 = SRAM_ADDR.toNat + 2 * v := by omega
  rw [sramWord, CModel.storeWord, haddr]
  by_cases heq : w = v
  · subst heq
    rw [if_pos rfl, loadU16_of_holds (storeSram_holds _ _ _)]
  · rw [if_neg heq, sramWord]
    have hlen : (u16Bytes x).length = 2 := rfl
    congr 1
    exact loadU16_congr (storeSram_out (by dsimp only; omega))
      (storeSram_out (by dsimp only; omega))

/-- **One word** written in both. -/
theorem HoldsSram.store (hAW : AW ≤ 27) (h : HoldsSram m s) {w : Nat × UInt16}
    (hw : InWindow AW w.1) : HoldsSram (applyWrites [portWord AW w] m) (s.storeWord w) := by
  intro a
  obtain ⟨v, x⟩ := w
  obtain ⟨k, rfl⟩ := Nat.exists_eq_add_of_le hw.1
  have hk : k < 2 ^ AW := by
    have := hw.2
    dsimp only at this
    omega
  have hport : (BitVec.ofNat AW (134217728 + k)).toNat = k := by
    obtain ⟨j, hj⟩ : 2 ^ AW ∣ 134217728 :=
      Nat.pow_dvd_pow 2 hAW
    rw [BitVec.toNat_ofNat, hj, Nat.mul_add_mod, Nat.mod_eq_of_lt hk]
  rw [sramWord_storeWord s x k a.toNat]
  show Function.update m (BitVec.ofNat AW (134217728 + k)) x.toBitVec a = _
  by_cases heq : a = BitVec.ofNat AW (134217728 + k)
  · rw [heq, Function.update_self, hport, if_pos rfl]
  · rw [Function.update_of_ne heq, if_neg, h a]
    intro hak
    exact heq (BitVec.eq_of_toNat_eq (by rw [hport, hak]))

theorem HoldsSram.stores (hAW : AW ≤ 27) (h : HoldsSram m s) {ws : List (Nat × UInt16)}
    (hws : ∀ w ∈ ws, InWindow AW w.1) :
    HoldsSram (applyWrites (ws.map (portWord AW)) m) (ws.foldl CModel.storeWord s) := by
  induction ws generalizing m s with
  | nil => exact h
  | cons w ws ih =>
      have hstep := h.store hAW (hws w List.mem_cons_self)
      exact ih hstep fun v hv => hws v (List.mem_cons_of_mem w hv)

end Words

/-! ## Loads -/

/-- A load the engine takes, into the part of `sram_` the banks hold. -/
structure Loadable (AW : Nat) (p : DMAParam) : Prop where
  noWrap : p.NoWrap true
  source : p.srcStride.toNat % 2 = 0
  packed : p.dstStride.toNat = p.cols.toNat * 2
  fits : p.sramAddr.toNat + p.rows.toNat * p.cols.toNat * 2
    ≤ SRAM_ADDR.toNat + 2 ^ AW * 2

section Loads

variable {AW : Nat} {p : DMAParam} {s s' : CModel}

theorem dmaLoad_aligned (h : dmaLoad p s = .ok s') :
    p.sramAddr.toNat % 16 = 0 ∧ p.ddrAddr.toNat % 16 = 0 := by
  obtain ⟨u, hassert, -⟩ := bind_ok h
  rw [eclipseAssert] at hassert
  split_ifs at hassert with haligned
  rw [Bool.and_eq_true, beq_iff_eq, beq_iff_eq] at haligned
  constructor
  · simpa [UInt32.toNat_mod] using congrArg UInt32.toNat haligned.1
  · simpa [UInt32.toNat_mod] using congrArg UInt32.toNat haligned.2

theorem dmaLoad_rows (h : dmaLoad p s = .ok s') {i : Nat} (hi : i < p.rows.toNat) :
    SRAM_ADDR.toNat ≤ (p.loadDst i).toNat := by
  obtain ⟨u, -, h⟩ := bind_ok h
  refine forLoop_inv (fun k _ => ∀ i < k, SRAM_ADDR.toNat ≤ (p.loadDst i).toNat)
    (fun i hi => absurd hi (Nat.not_lt_zero i)) (fun k hk t t' ht hrow => ?_) h i hi
  intro i hi
  by_cases heq : i = k
  · subst heq
    exact (dmaLoadRow_ok_iff.mp hrow).1.2.1
  · exact ht i (by omega)

/-- The words of a load lie in the banks. -/
theorem Loadable.inWindow (hAW : AW ≤ 27) (hp : Loadable AW p) (h : dmaLoad p s = .ok s')
    {rd : Nat → UInt8} {w : Nat × UInt16} (hw : w ∈ dmaLoadWords p rd) :
    InWindow AW w.1 := by
  obtain ⟨i, hi, hw⟩ := List.mem_flatMap.mp hw
  obtain ⟨j, hj, rfl⟩ := List.mem_map.mp hw
  rw [List.mem_range] at hi hj
  have hlo := dmaLoad_rows h hi
  have hpow : 2 ^ AW ≤ 2 ^ 27 := Nat.pow_le_pow_right (by decide) hAW
  have hbase : SRAM_ADDR.toNat = 268435456 := rfl
  have hfits := hp.fits
  have hflat := flat_lt hi hj
  have hdst : (p.loadDst i).toNat = p.sramAddr.toNat + i * p.cols.toNat * 2 := by
    rw [DMAParam.loadDst, UInt32.toNat_add, UInt32.toNat_mul, toNat_ofNat_lt hi, hp.packed,
      Nat.mul_comm _ i, ← Nat.mul_assoc, Nat.add_mod_mod, Nat.mod_eq_of_lt (by omega)]
  dsimp only [InWindow]
  omega

/-- A load changes no DDR byte. -/
theorem Loadable.ddrByte (hp : Loadable AW p) (h : dmaLoad p s = .ok s') :
    s'.ddrByte = s.ddrByte := by
  have halign := dmaLoad_aligned h
  have hpacked := hp.packed
  rw [dmaLoad_eq_words (by omega) (by omega) h]
  funext a
  exact storeWord_ddr s _ a

end Loads

/-! ## Engine, crossbar and banks -/

section Transfers

variable {LAW LAST : Nat} {p : DMAParam} {ps : List DMAParam} {ptrs : List UInt32}
  {s s' : CModel} {rd : Nat → UInt8} {b b' : BankXbar.State 5 LAW 16}

variable (LAST) in
/-- **A load**: the engine from `desc_start` to `done`, with the banks behind its write
ports and anything at all on the read ports. -/
def XbarLoad (rd : Nat → UInt8) (p : DMAParam) (b b' : BankXbar.State 5 LAW 16) : Prop :=
  ∃ (start : Nat → Bool) (σ : Nat → State (LAW + 5) LAST) (rdata : Nat → Fin 2 → BitVec 128)
    (rvalid : Nat → Fin 2 → Bool) (xin : Nat → BankXbar.Input 5 LAW 16)
    (banks : Nat → BankXbar.State 5 LAW 16) (n : Nat),
    Transfer (descPorts p) start σ ∧ DdrReturns (descPorts p) rd σ rdata rvalid
      ∧ (∀ c, banks (c + 1)
        = BankXbar.step ((σ c).onXbar (rdata c) (rvalid c) (xin c)) (banks c))
      ∧ (σ n).done = true ∧ (∀ c < n, (σ c).done = false) ∧ banks 0 = b ∧ banks n = b'

variable (LAST) in
/-- Loads one after the other. -/
inductive XbarLoads (rd : Nat → UInt8) : List DMAParam → BankXbar.State 5 LAW 16 →
    BankXbar.State 5 LAW 16 → Prop
  | nil (b : BankXbar.State 5 LAW 16) : XbarLoads rd [] b b
  | cons {p : DMAParam} {ps : List DMAParam} {b b' b'' : BankXbar.State 5 LAW 16}
      (h : XbarLoad LAST rd p b b') (hs : XbarLoads rd ps b' b'') : XbarLoads rd (p :: ps) b b''

/-- **One load** in the banks and in the simulator. -/
theorem XbarLoad.holds (hLAW : LAW ≤ 22) (hp : Loadable (LAW + 5) p)
    (h : XbarLoad LAST s.ddrByte p b b') (hload : dmaLoad p s = .ok s')
    (hinit : HoldsSram (b.flat false) s) : HoldsSram (b'.flat false) s' := by
  obtain ⟨start, σ, rdata, rvalid, xin, banks, n, t, hret, hbanks, hdone, hfirst, rfl, rfl⟩ := h
  obtain ⟨hsram, hddr⟩ := dmaLoad_aligned hload
  obtain ⟨m, hm, hm', hflat⟩ := dma_xbar_refines (by omega) hp.noWrap hsram hddr hp.source
    hp.packed t hret hbanks
  have hnm : n = m := by
    rcases Nat.lt_trichotomy n m with hlt | heq | hlt
    · rw [hm' n hlt] at hdone
      cases hdone
    · exact heq
    · rw [hfirst m hlt] at hm
      cases hm
  subst hnm
  have hpacked := hp.packed
  rw [hflat, dmaLoad_eq_words (by omega) (by omega) hload]
  exact hinit.stores (by omega) fun w hw => hp.inWindow (by omega) hload hw

/-- The banks clocked behind an engine. -/
def bankTrace (σ : Nat → State (LAW + 5) LAST) (rdata : Nat → Fin 2 → BitVec 128)
    (rvalid : Nat → Fin 2 → Bool) (xin : Nat → BankXbar.Input 5 LAW 16)
    (b : BankXbar.State 5 LAW 16) : Nat → BankXbar.State 5 LAW 16
  | 0 => b
  | c + 1 => BankXbar.step ((σ c).onXbar (rdata c) (rvalid c) (xin c))
      (bankTrace σ rdata rvalid xin b c)

/-- Every load ends. -/
theorem xbarLoad_total (hLAW : LAW ≤ 22) (hp : Loadable (LAW + 5) p)
    (hsram : p.sramAddr.toNat % 16 = 0) (hddr : p.ddrAddr.toNat % 16 = 0)
    (e : State (LAW + 5) LAST) (xin : Nat → BankXbar.Input 5 LAW 16) :
    ∃ b', XbarLoad LAST rd p b b' := by
  have t := simulate_transfer (descPorts p) (fun _ => true) rfl e
  have hret := bench_returns (descPorts p) rd (simulate (descPorts p) (fun _ => true) e.reset)
  obtain ⟨n, hdone, hfirst, -⟩ := @dma_xbar_refines LAW LAST (by omega) p hp.noWrap hsram hddr
    hp.source hp.packed rd _ _ t _ _ hret xin (bankTrace _ _ _ xin b) fun c => rfl
  exact ⟨_, _, _, _, _, xin, bankTrace _ _ _ xin b, n, t, hret, fun c => rfl, hdone, hfirst, rfl,
    rfl⟩

theorem readDesc_congr {α : Type} {load : (Nat → UInt8) → Nat → α} {size : Nat}
    {ptr : UInt32} {d : α} (h : s'.ddrByte = s.ddrByte)
    (hread : readDesc load size ptr s = .ok d) : readDesc load size ptr s' = .ok d := by
  rw [readDesc_ok_iff] at hread ⊢
  rw [h]
  exact hread

/-- The simulator's load of a descriptor that was read. -/
theorem dmaLoad_of_exec {ptr : UInt32} (hread : readDesc DMAParam.load 24 ptr s = .ok p)
    (h : execDmaLoad ptr s = .ok s') : dmaLoad p s = .ok s' := by
  rw [execDmaLoad, hread, ok_bind] at h
  exact h

theorem forall₂_readDesc (h : s'.ddrByte = s.ddrByte)
    (hdesc : List.Forall₂ (fun ptr p => readDesc DMAParam.load 24 ptr s = .ok p) ptrs ps) :
    List.Forall₂ (fun ptr p => readDesc DMAParam.load 24 ptr s' = .ok p) ptrs ps :=
  hdesc.imp fun _ _ hread => readDesc_congr h hread

/-- **A run of loads** in the banks and in the simulator. -/
theorem XbarLoads.holds (hLAW : LAW ≤ 22) (h : XbarLoads LAST rd ps b b')
    (hrd : s.ddrByte = rd) (hps : ∀ p ∈ ps, Loadable (LAW + 5) p)
    (hdesc : List.Forall₂ (fun ptr p => readDesc DMAParam.load 24 ptr s = .ok p) ptrs ps)
    (hexec : runAll execDmaLoad ptrs s = .ok s') (hinit : HoldsSram (b.flat false) s) :
    HoldsSram (b'.flat false) s' := by
  induction h generalizing ptrs s with
  | nil =>
      cases hdesc
      cases hexec
      exact hinit
  | cons h _ ih =>
      cases hdesc with
      | cons hread hdesc =>
          obtain ⟨t, ht, hexec⟩ := bind_ok hexec
          have hload := dmaLoad_of_exec hread ht
          have hp := hps _ List.mem_cons_self
          have hddr := hp.ddrByte hload
          subst hrd
          exact ih hddr (fun p hmem => hps p (List.mem_cons_of_mem _ hmem))
            (forall₂_readDesc hddr hdesc) hexec (h.holds hLAW hp hload hinit)

theorem xbarLoads_total (hLAW : LAW ≤ 22) (hps : ∀ p ∈ ps, Loadable (LAW + 5) p)
    (hdesc : List.Forall₂ (fun ptr p => readDesc DMAParam.load 24 ptr s = .ok p) ptrs ps)
    {t : CModel} (hsame : t.ddrByte = s.ddrByte) (hexec : runAll execDmaLoad ptrs t = .ok s')
    (e : State (LAW + 5) LAST) (xin : Nat → BankXbar.Input 5 LAW 16) :
    ∃ b', XbarLoads LAST rd ps b b' := by
  induction hdesc generalizing t b with
  | nil => exact ⟨b, .nil b⟩
  | cons hread _ ih =>
      obtain ⟨u, hu, hexec⟩ := bind_ok hexec
      have hload := dmaLoad_of_exec (readDesc_congr hsame hread) hu
      have hp := hps _ List.mem_cons_self
      obtain ⟨hsram, hddr⟩ := dmaLoad_aligned hload
      obtain ⟨b₁, h⟩ := @xbarLoad_total LAW LAST _ rd b hLAW hp hsram hddr e xin
      obtain ⟨b', hs⟩ := ih (b := b₁) (fun p hmem => hps p (List.mem_cons_of_mem _ hmem))
        ((hp.ddrByte hload).trans hsame) hexec
      exact ⟨b', .cons h hs⟩

/-- **Loads through the crossbar, and what is read back.** From banks that hold the SRAM
of the simulator, the engine makes any list of loads that the simulator runs; then the
banks hold the simulator's SRAM again, and every read the crossbar grants returns its
word. -/
theorem loads_readBack (hLAW : LAW ≤ 22) (hps : ∀ p ∈ ps, Loadable (LAW + 5) p)
    (hdesc : List.Forall₂ (fun ptr p => readDesc DMAParam.load 24 ptr s = .ok p) ptrs ps)
    (hexec : runAll execDmaLoad ptrs s = .ok s') (hinit : HoldsSram (b.flat false) s)
    (e : State (LAW + 5) LAST) (xin : Nat → BankXbar.Input 5 LAW 16) :
    (∃ b', XbarLoads LAST s.ddrByte ps b b')
      ∧ ∀ b', XbarLoads LAST s.ddrByte ps b b' → HoldsSram (b'.flat false) s'
        ∧ ∀ i : BankXbar.Input 5 LAW 16, i.rst_n = true → i.hash_en = false →
          ∀ k, (BankXbar.step i b').grant k = true →
            (BankXbar.step i b').rdData k = sramWord s' (i.req_addr k).toNat := by
  refine ⟨xbarLoads_total hLAW hps hdesc rfl hexec e xin, fun b' h => ?_⟩
  have hheld := h.holds hLAW rfl hps hdesc hexec hinit
  refine ⟨hheld, fun i hr hhash k hgrant => ?_⟩
  rw [rdData_step hr hgrant, hhash]
  exact hheld _

end Transfers

/-! ### Two tiles -/

def loadMatmulRhs : DMAParam :=
  { sramAddr := 0x10000400, ddrAddr := 0x40020000, rows := 4, cols := 16
    srcStride := 32, dstStride := 32 }

/-- Two descriptors in a memory of zeros. -/
def twoTiles : CModel :=
  CModel.storeDdr (CModel.storeDdr (fun _ => 0) 0x40000100 loadMatmulLhs.bytes) 0x40000140
    loadMatmulRhs.bytes

def zeroBanks : BankXbar.State 5 7 16 :=
  { grant := fun _ => false, bank_of_d := fun _ => 0#5, banks := fun _ => ⟨fun _ => 0#16, 0#16⟩ }

theorem readDesc_twoTiles :
    readDesc DMAParam.load 24 0x40000100 twoTiles = .ok loadMatmulLhs
      ∧ readDesc DMAParam.load 24 0x40000140 twoTiles = .ok loadMatmulRhs := by
  constructor
  · refine readDesc_ok_iff.mpr ⟨by decide, (DMAParam.load_bytes fun k hk => ?_).symm⟩
    have hlen : loadMatmulLhs.bytes.length = 24 := rfl
    refine Eq.trans ?_ (storeDdr_holds (fun _ => 0) 0x40000100 loadMatmulLhs.bytes k hk)
    have hptr : (0x40000100 : UInt32).toNat = 0x40000100 := rfl
    exact storeDdr_out (by omega)
  · exact readDesc_ok_iff.mpr ⟨by decide, (DMAParam.load_bytes (storeDdr_holds _ _ _)).symm⟩

theorem loads_readBack_twoTiles : ∃ s',
    runAll execDmaLoad [0x40000100, 0x40000140] twoTiles = .ok s'
      ∧ (∃ b', XbarLoads 3 twoTiles.ddrByte [loadMatmulLhs, loadMatmulRhs] zeroBanks b')
      ∧ ∀ b', XbarLoads 3 twoTiles.ddrByte [loadMatmulLhs, loadMatmulRhs] zeroBanks b' →
        HoldsSram (b'.flat false) s' := by
  have hok : (runAll execDmaLoad [0x40000100, 0x40000140] twoTiles).isOk = true := by
    decide +kernel
  cases hexec : runAll execDmaLoad [0x40000100, 0x40000140] twoTiles with
  | error e =>
      rw [hexec] at hok
      cases hok
  | ok s' =>
      obtain ⟨hlhs, hrhs⟩ := readDesc_twoTiles
      have hps : ∀ p ∈ [loadMatmulLhs, loadMatmulRhs], Loadable (7 + 5) p := by
        intro p hp
        simp only [List.mem_cons, List.not_mem_nil, or_false] at hp
        rcases hp with rfl | rfl
        · exact ⟨⟨by decide, by decide, by decide⟩, by decide, by decide, by decide⟩
        · exact ⟨⟨by decide, by decide, by decide⟩, by decide, by decide, by decide⟩
      obtain ⟨hexists, hall⟩ := @loads_readBack 7 3 _ _ twoTiles s' zeroBanks (by decide) hps
        (.cons hlhs (.cons hrhs .nil)) hexec (fun a => rfl) powerOn fun _ => idleXbar
      exact ⟨s', rfl, hexists, fun b' h => (hall b' h).1⟩

end EclipseNpu.Rtl

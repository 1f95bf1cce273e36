import EclipseNpu.Lib.Arbiter
import EclipseNpu.Lib.Clocked
import Mathlib.Data.Fintype.Basic
import Mathlib.Algebra.Group.Nat.Defs

/-!
# Rtl — BankXbar

The banked SRAM behind its crossbar (`rtl/bank/sram.sv`, `bank_mem.sv`,
`bank_xbar.sv`): `2 ^ BW` banks of `2 ^ LAW` words, as many read slots and as
many write slots, one access of each kind per bank and cycle.

A word address splits into its bank and its address inside the bank, plainly
or with the bank number hashed; either way the split is a bijection
(`split_bijective`), so the banks are one flat memory (`State.flat`).
-/

namespace EclipseNpu.Rtl.BankXbar

open EclipseNpu.Lib

variable {BW LAW DW : Nat}

/-! ## The memories -/

/-- `sram`: one read port, one write port, read data one cycle late. -/
structure Sram (LAW DW : Nat) where
  mem : BitVec LAW → BitVec DW
  rdata : BitVec DW

def Sram.step (rst_n we : Bool) (waddr : BitVec LAW) (wdata : BitVec DW)
    (raddr : BitVec LAW) (s : Sram LAW DW) : Sram LAW DW :=
  { rdata := if rst_n then s.mem raddr else BitVec.ofNat DW 0
    mem := if we then Function.update s.mem waddr wdata else s.mem }

/-- `bank_mem`: a bank per number, each with its own ports. -/
def bankMemStep (rst_n : Bool) (rd_addr : BitVec BW → BitVec LAW)
    (wr_en : BitVec BW → Bool) (wr_addr : BitVec BW → BitVec LAW)
    (wr_data : BitVec BW → BitVec DW) (banks : BitVec BW → Sram LAW DW) :
    BitVec BW → Sram LAW DW := fun b =>
  (banks b).step rst_n (wr_en b) (wr_addr b) (wr_data b) (rd_addr b)

/-! ## The crossbar -/

structure Input (BW LAW DW : Nat) where
  rst_n : Bool
  hash_en : Bool
  req_addr : Fin (2 ^ BW) → BitVec (LAW + BW)
  wr_addr : Fin (2 ^ BW) → BitVec (LAW + BW)
  wr_data : Fin (2 ^ BW) → BitVec DW
  wr_valid : Fin (2 ^ BW) → Bool

structure State (BW LAW DW : Nat) where
  grant : Fin (2 ^ BW) → Bool
  bank_of_d : Fin (2 ^ BW) → BitVec BW
  banks : BitVec BW → Sram LAW DW

/-- The bank of a word address. -/
def bankOf (hash_en : Bool) (a : BitVec (LAW + BW)) : BitVec BW :=
  if hash_en then a.extractLsb' 0 BW ^^^ a.extractLsb' BW BW else a.extractLsb' 0 BW

/-- Its address inside the bank. -/
def localOf (a : BitVec (LAW + BW)) : BitVec LAW := a.extractLsb' BW LAW

/-- The slots and the banks in loop order. -/
def slots (BW : Nat) : List (Fin (2 ^ BW)) := List.finRange (2 ^ BW)

def bankNumbers (BW : Nat) : List (BitVec BW) := (slots BW).map BitVec.ofFin

namespace Input

/-- `bank_cnt`: the read requests per bank, in 6 bits. -/
def bankCnt (i : Input BW LAW DW) : BitVec BW → BitVec 6 :=
  (slots BW).foldl (fun cnt k =>
    let b := bankOf i.hash_en (i.req_addr k)
    Function.update cnt b (cnt b + 1#6)) fun _ => 0#6

/-- `wr_bank_cnt`: the valid write requests per bank. -/
def wrBankCnt (i : Input BW LAW DW) : BitVec BW → BitVec 6 :=
  (slots BW).foldl (fun cnt k =>
    let b := bankOf i.hash_en (i.wr_addr k)
    if i.wr_valid k then Function.update cnt b (cnt b + 1#6) else cnt) fun _ => 0#6

/-- The bank a read slot asks for. -/
def readTarget (i : Input BW LAW DW) (k : Fin (2 ^ BW)) : Option (BitVec BW) :=
  some (bankOf i.hash_en (i.req_addr k))

/-- The bank a write slot asks for, if it is valid. -/
def writeTarget (i : Input BW LAW DW) (k : Fin (2 ^ BW)) : Option (BitVec BW) :=
  if i.wr_valid k then some (bankOf i.hash_en (i.wr_addr k)) else none

/-- `found`, `served` and `b_rd_addr`. -/
def reads (i : Input BW LAW DW) : Grants (Fin (2 ^ BW)) (BitVec BW) (BitVec LAW) :=
  arbitrate i.readTarget (fun k => localOf (i.req_addr k)) (BitVec.ofNat LAW 0)
    (bankNumbers BW) (slots BW)

/-- `wfound` (which is `b_we`), `wr_grant`, `b_waddr` and `b_wdata`. -/
def writes (i : Input BW LAW DW) :
    Grants (Fin (2 ^ BW)) (BitVec BW) (BitVec LAW × BitVec DW) :=
  arbitrate i.writeTarget (fun k => (localOf (i.wr_addr k), i.wr_data k))
    (BitVec.ofNat LAW 0, BitVec.ofNat DW 0) (bankNumbers BW) (slots BW)

/-- `wr_grant`. -/
def wrGrant (i : Input BW LAW DW) : Fin (2 ^ BW) → Bool := i.writes.served

end Input

/-- `rd_data`. -/
def State.rdData (s : State BW LAW DW) (k : Fin (2 ^ BW)) : BitVec DW :=
  (s.banks (s.bank_of_d k)).rdata

def step (i : Input BW LAW DW) (s : State BW LAW DW) : State BW LAW DW :=
  { grant := fun k => if i.rst_n then i.reads.served k else false
    bank_of_d := fun k =>
      if i.rst_n then bankOf i.hash_en (i.req_addr k) else BitVec.ofNat BW 0
    banks := bankMemStep i.rst_n i.reads.load i.writes.found
      (fun b => (i.writes.load b).1) (fun b => (i.writes.load b).2) s.banks }

/-- A run of the clock. -/
def trace (input : Nat → Input BW LAW DW) (s : State BW LAW DW) :
    Nat → State BW LAW DW
  | 0 => s
  | c + 1 => step (input c) (trace input s c)

/-! ## The address split -/

/-- The address with a given bank and local address. -/
def joinAddr (hash_en : Bool) (b : BitVec BW) (l : BitVec LAW) :
    BitVec (LAW + BW) :=
  l ++ (if hash_en then b ^^^ l.extractLsb' 0 BW else b)

theorem localOf_append (l : BitVec LAW) (b : BitVec BW) : localOf (l ++ b) = l :=
  BitVec.extractLsb'_append_eq_left

/-- The hash bits are the low bits of the local address. -/
theorem extract_mid (a : BitVec (LAW + BW)) :
    a.extractLsb' BW BW = (localOf a).extractLsb' 0 BW := by
  apply BitVec.eq_of_getLsbD_eq
  intro j hj
  have hbit : j < LAW ∨ a.getLsbD (BW + j) = false := by
    rcases Nat.lt_or_ge j LAW with h | h
    · exact .inl h
    · exact .inr (BitVec.getLsbD_of_ge _ _ (by omega))
  simp only [localOf, BitVec.getLsbD_extractLsb', hj, decide_true, Bool.true_and,
    Nat.zero_add]
  rcases hbit with h | h
  · rw [decide_eq_true h, Bool.true_and]
  · rw [h, Bool.and_false]

theorem bankOf_append (h : Bool) (l : BitVec LAW) (b : BitVec BW) :
    bankOf h (l ++ b) = if h then b ^^^ l.extractLsb' 0 BW else b := by
  rw [bankOf, extract_mid, localOf_append, BitVec.extractLsb'_append_eq_right]

theorem append_split (a : BitVec (LAW + BW)) :
    localOf a ++ a.extractLsb' 0 BW = a := by
  apply BitVec.eq_of_getLsbD_eq
  intro j hj
  rw [BitVec.getLsbD_append]
  split
  · rename_i hlow
    simp [hlow]
  · rename_i hhigh
    have hsum : BW + (j - BW) = j := by omega
    rw [localOf, BitVec.getLsbD_extractLsb', hsum, decide_eq_true (by omega),
      Bool.true_and]

/-- **Splitting an address loses nothing**, hashed or not. -/
theorem split_bijective (h : Bool) :
    Function.Bijective fun a : BitVec (LAW + BW) => (bankOf h a, localOf a) := by
  refine Function.bijective_iff_has_inverse.mpr
    ⟨fun p => joinAddr h p.1 p.2, fun a => ?_, fun p => ?_⟩
  · show joinAddr h (bankOf h a) (localOf a) = a
    rw [joinAddr, ← extract_mid]
    cases h
    · exact append_split a
    · simp only [bankOf, if_true, BitVec.xor_assoc, BitVec.xor_self, BitVec.xor_zero]
      exact append_split a
  · obtain ⟨b, l⟩ := p
    show (bankOf h (joinAddr h b l), localOf (joinAddr h b l)) = (b, l)
    rw [joinAddr, bankOf_append, localOf_append]
    cases h
    · rfl
    · simp only [if_true, BitVec.xor_assoc, BitVec.xor_self, BitVec.xor_zero]

theorem split_inj {h : Bool} {a a' : BitVec (LAW + BW)}
    (hb : bankOf h a = bankOf h a') (hl : localOf a = localOf a') : a = a' :=
  (split_bijective h).injective (Prod.ext hb hl)

/-! ## Arbitration -/

theorem bankNumbers_nodup : (bankNumbers BW).Nodup :=
  (List.nodup_finRange _).map fun _ _ h => by simpa using h

theorem mem_bankNumbers (b : BitVec BW) : b ∈ bankNumbers BW :=
  List.mem_map.mpr ⟨b.toFin, List.mem_finRange _, rfl⟩

section Cycle

variable (i : Input BW LAW DW)

theorem reads_spec : Decided i.readTarget (fun k => localOf (i.req_addr k)) (BitVec.ofNat LAW 0)
    (slots BW) (bankNumbers BW) i.reads := arbitrate_spec bankNumbers_nodup

theorem writes_spec : Decided i.writeTarget
    (fun k => (localOf (i.wr_addr k), i.wr_data k)) (BitVec.ofNat LAW 0, BitVec.ofNat DW 0)
    (slots BW) (bankNumbers BW) i.writes := arbitrate_spec bankNumbers_nodup

variable {i}

theorem writeTarget_eq {k : Fin (2 ^ BW)} {b : BitVec BW} :
    i.writeTarget k = some b
      ↔ i.wr_valid k = true ∧ bankOf i.hash_en (i.wr_addr k) = b := by
  unfold Input.writeTarget
  cases i.wr_valid k <;> simp

/-- A read slot is served if it is the first of its bank. -/
theorem served_iff {k : Fin (2 ^ BW)} : i.reads.served k = true
    ↔ firstSlot i.readTarget (slots BW) (bankOf i.hash_en (i.req_addr k)) = some k := by
  rw [(reads_spec i).served]
  refine ⟨fun ⟨b, _, hb⟩ => ?_, fun h => ⟨_, mem_bankNumbers _, h⟩⟩
  rw [← Option.some.inj (firstSlot_finRange.mp hb).1] at hb
  exact hb

/-- A write slot is granted if it is the first valid one of its bank. -/
theorem wrGrant_iff {k : Fin (2 ^ BW)} : i.wrGrant k = true
    ↔ firstSlot i.writeTarget (slots BW) (bankOf i.hash_en (i.wr_addr k)) = some k := by
  rw [Input.wrGrant, (writes_spec i).served]
  refine ⟨fun ⟨b, _, hb⟩ => ?_, fun h => ⟨_, mem_bankNumbers _, h⟩⟩
  rw [← (writeTarget_eq.mp (firstSlot_finRange.mp hb).1).2] at hb
  exact hb

/-- Two granted writes to one bank are one write. -/
theorem wrGrant_unique {j k : Fin (2 ^ BW)} (hj : i.wrGrant j = true)
    (hk : i.wrGrant k = true)
    (h : bankOf i.hash_en (i.wr_addr j) = bankOf i.hash_en (i.wr_addr k)) : j = k := by
  rw [wrGrant_iff, h] at hj
  exact Option.some.inj (hj.symm.trans (wrGrant_iff.mp hk))

/-- A valid write that shares its bank with no other is granted. -/
theorem wrGrant_of_alone {k : Fin (2 ^ BW)} (hk : i.wr_valid k = true)
    (halone : ∀ j, i.wr_valid j = true →
      bankOf i.hash_en (i.wr_addr j) = bankOf i.hash_en (i.wr_addr k) → j = k) :
    i.wrGrant k = true := by
  rw [wrGrant_iff, slots, firstSlot_finRange]
  refine ⟨writeTarget_eq.mpr ⟨hk, rfl⟩, fun j hj => ?_⟩
  obtain ⟨hv, hb⟩ := writeTarget_eq.mp hj
  exact le_of_eq (halone j hv hb).symm

/-- Only valid writes are granted. -/
theorem wr_valid_of_wrGrant {k : Fin (2 ^ BW)} (hk : i.wrGrant k = true) :
    i.wr_valid k = true := by
  rw [wrGrant_iff, slots, firstSlot_finRange] at hk
  exact (writeTarget_eq.mp hk.1).1

end Cycle

/-! ## The flat memory -/

/-- The banks as one memory. -/
def State.flat (h : Bool) (s : State BW LAW DW) (a : BitVec (LAW + BW)) : BitVec DW :=
  (s.banks (bankOf h a)).mem (localOf a)

/-- The writes granted in a cycle. -/
def grantedWrites (i : Input BW LAW DW) : List (BitVec (LAW + BW) × BitVec DW) :=
  (slots BW).filterMap fun k =>
    if i.wrGrant k then some (i.wr_addr k, i.wr_data k) else none

theorem mem_grantedWrites {i : Input BW LAW DW} {w : BitVec (LAW + BW) × BitVec DW} :
    w ∈ grantedWrites i
      ↔ ∃ k, i.wrGrant k = true ∧ w = (i.wr_addr k, i.wr_data k) := by
  unfold grantedWrites slots
  rw [List.mem_filterMap]
  refine ⟨fun ⟨k, _, hk⟩ => ?_, fun ⟨k, hk, hw⟩ => ⟨k, List.mem_finRange k, ?_⟩⟩
  · by_cases hg : i.wrGrant k = true
    · rw [if_pos hg] at hk
      exact ⟨k, hg, (Option.some.inj hk).symm⟩
    · rw [if_neg hg] at hk
      cases hk
  · rw [if_pos hk, hw]

/-- Granted writes go to different banks, so to different addresses. -/
theorem grantedWrites_distinct (i : Input BW LAW DW) :
    (grantedWrites i).Pairwise fun w v => w.1 ≠ v.1 := by
  refine List.pairwise_filterMap.mpr ((List.nodup_finRange _).imp ?_)
  intro j k hne w hw v hv heq
  by_cases hj : i.wrGrant j = true
  · by_cases hk : i.wrGrant k = true
    · rw [if_pos hj] at hw
      rw [if_pos hk] at hv
      rw [← Option.some.inj hw, ← Option.some.inj hv] at heq
      exact hne (wrGrant_unique hj hk (congrArg _ heq))
    · rw [if_neg hk] at hv
      cases hv
  · rw [if_neg hj] at hw
    cases hw

section Step

variable {i : Input BW LAW DW} {s : State BW LAW DW}

/-- The write port of one bank, on the flat memory. -/
theorem flat_step_bank (h : Bool) (a : BitVec (LAW + BW)) :
    (step i s).flat h a = if i.writes.found (bankOf h a) = true then
      Function.update (s.banks (bankOf h a)).mem (i.writes.load (bankOf h a)).1
        (i.writes.load (bankOf h a)).2 (localOf a)
      else s.flat h a := by
  show (if i.writes.found (bankOf h a) = true then _ else _ : BitVec LAW → BitVec DW)
    (localOf a) = _
  split <;> rfl

/-- The bank a granted write goes to stores it. -/
theorem flat_step_granted {k : Fin (2 ^ BW)} (hk : i.wrGrant k = true) :
    (step i s).flat i.hash_en (i.wr_addr k) = i.wr_data k := by
  have hfirst := wrGrant_iff.mp hk
  have hfound := ((writes_spec i).found _).mpr ⟨mem_bankNumbers _, by rw [hfirst]; rfl⟩
  have hload := (writes_spec i).load _ (mem_bankNumbers (bankOf i.hash_en (i.wr_addr k)))
  rw [hfirst] at hload
  rw [flat_step_bank, if_pos hfound, hload]
  exact Function.update_self ..

/-- An address no granted write names is not stored to. -/
theorem flat_step_other {a : BitVec (LAW + BW)}
    (h : ∀ k, i.wrGrant k = true → i.wr_addr k ≠ a) :
    (step i s).flat i.hash_en a = s.flat i.hash_en a := by
  rw [flat_step_bank]
  by_cases hfound : i.writes.found (bankOf i.hash_en a) = true
  · obtain ⟨k, hk⟩ := Option.isSome_iff_exists.mp
      (((writes_spec i).found _).mp hfound).2
    have hload := (writes_spec i).load _ (mem_bankNumbers (bankOf i.hash_en a))
    rw [hk] at hload
    have hbank := (writeTarget_eq.mp (firstSlot_finRange.mp hk).1).2
    rw [if_pos hfound, hload]
    refine Function.update_of_ne (fun hl => ?_) ..
    refine h k (wrGrant_iff.mpr ?_) (split_inj hbank hl.symm)
    rw [hbank]
    exact hk
  · rw [if_neg hfound]

/-- **One edge** applies the granted writes. -/
theorem flat_step : (step i s).flat i.hash_en
    = applyWrites (grantedWrites i) (s.flat i.hash_en) := by
  funext a
  by_cases h : ∃ k, i.wrGrant k = true ∧ i.wr_addr k = a
  · obtain ⟨k, hk, rfl⟩ := h
    rw [flat_step_granted hk]
    exact (applyWrites_mem (grantedWrites_distinct i)
      (mem_grantedWrites.mpr ⟨k, hk, rfl⟩)).symm
  · have hnone : ∀ k, i.wrGrant k = true → i.wr_addr k ≠ a :=
      fun k hk ha => h ⟨k, hk, ha⟩
    rw [flat_step_other hnone, applyWrites_notMem]
    intro w hw
    obtain ⟨k, hk, rfl⟩ := mem_grantedWrites.mp hw
    exact hnone k hk

/-- **A grant comes with the word asked for.** -/
theorem rdData_step {k : Fin (2 ^ BW)} (hr : i.rst_n = true)
    (hg : (step i s).grant k = true) :
    (step i s).rdData k = s.flat i.hash_en (i.req_addr k) := by
  have hserved : i.reads.served k = true := by
    have : (if i.rst_n then i.reads.served k else false) = true := hg
    rwa [if_pos hr] at this
  have hfirst := served_iff.mp hserved
  have hload := (reads_spec i).load _ (mem_bankNumbers (bankOf i.hash_en (i.req_addr k)))
  rw [hfirst] at hload
  have hbank : (step i s).bank_of_d k = bankOf i.hash_en (i.req_addr k) := if_pos hr
  rw [State.rdData, hbank]
  show (if i.rst_n then (s.banks _).mem (i.reads.load _) else _) = _
  rw [if_pos hr, hload]
  rfl

end Step

/-- **The crossbar refines a flat multi-port memory.** -/
theorem bankXbar_refines {h : Bool} {input : Nat → Input BW LAW DW}
    (hr : ∀ c, (input c).rst_n = true) (hh : ∀ c, (input c).hash_en = h)
    (s : State BW LAW DW) :
    (Function.Bijective fun a : BitVec (LAW + BW) => (bankOf h a, localOf a))
      ∧ (∃ flat : Nat → BitVec (LAW + BW) → BitVec DW,
        (∀ c a, flat c a = ((trace input s c).banks (bankOf h a)).mem (localOf a))
        ∧ (∀ c, (grantedWrites (input c)).Pairwise (fun w v => w.1 ≠ v.1)
          ∧ flat (c + 1) = applyWrites (grantedWrites (input c)) (flat c))
        ∧ ∀ c k, (trace input s (c + 1)).grant k = true →
          (trace input s (c + 1)).rdData k = flat c ((input c).req_addr k))
      ∧ (∀ c b, (∃ k, bankOf h ((input c).req_addr k) = b) →
        ∃ k, bankOf h ((input c).req_addr k) = b
          ∧ (∀ j, bankOf h ((input c).req_addr j) = b → k ≤ j)
          ∧ ∀ j, bankOf h ((input c).req_addr j) = b →
            ((trace input s (c + 1)).grant j = true ↔ j = k))
      ∧ ∀ c b, (∃ k, (input c).wr_valid k = true ∧ bankOf h ((input c).wr_addr k) = b) →
        ∃ k, ((input c).wr_valid k = true ∧ bankOf h ((input c).wr_addr k) = b)
          ∧ (∀ j, (input c).wr_valid j = true → bankOf h ((input c).wr_addr j) = b →
            k ≤ j)
          ∧ ∀ j, bankOf h ((input c).wr_addr j) = b →
            ((input c).wrGrant j = true ↔ j = k) := by
  refine ⟨split_bijective h, ⟨fun c => (trace input s c).flat h, fun c a => rfl,
    fun c => ⟨grantedWrites_distinct _, ?_⟩, fun c k hg => ?_⟩, ?_, ?_⟩
  · have hstep := flat_step (i := input c) (s := trace input s c)
    rw [hh c] at hstep
    exact hstep
  · have hdata := rdData_step (s := trace input s c) (hr c) hg
    rw [hh c] at hdata
    exact hdata
  · rintro c b ⟨k, hk⟩
    have htarget : (input c).readTarget k = some b := by
      rw [Input.readTarget, hh c, hk]
    obtain ⟨m, hm⟩ := Option.isSome_iff_exists.mp (firstSlot_isSome htarget)
    obtain ⟨hmb, hmin⟩ := firstSlot_finRange.mp hm
    rw [Input.readTarget, hh c] at hmb
    refine ⟨m, Option.some.inj hmb, fun j hj => hmin j ?_, fun j hj => ?_⟩
    · rw [Input.readTarget, hh c, hj]
    · have hgrant : (trace input s (c + 1)).grant j = (input c).reads.served j :=
        if_pos (hr c)
      rw [hgrant, served_iff, hh c, hj]
      show firstSlot _ (List.finRange _) b = some j ↔ _
      rw [hm, Option.some_inj, eq_comm]
  · rintro c b ⟨k, hv, hk⟩
    have htarget : (input c).writeTarget k = some b :=
      writeTarget_eq.mpr ⟨hv, by rw [hh c, hk]⟩
    obtain ⟨m, hm⟩ := Option.isSome_iff_exists.mp (firstSlot_isSome htarget)
    obtain ⟨hmb, hmin⟩ := firstSlot_finRange.mp hm
    obtain ⟨hmv, hmb⟩ := writeTarget_eq.mp hmb
    rw [hh c] at hmb
    refine ⟨m, ⟨hmv, hmb⟩, fun j hjv hj => hmin j ?_, fun j hj => ?_⟩
    · exact writeTarget_eq.mpr ⟨hjv, by rw [hh c, hj]⟩
    · rw [wrGrant_iff, hh c, hj]
      show firstSlot _ (List.finRange _) b = some j ↔ _
      rw [hm, Option.some_inj, eq_comm]

/-- Four words of bank 0, one for each slot, read and written at once. -/
def oneBank : Input 2 3 16 :=
  { rst_n := true, hash_en := true, req_addr := fun k => BitVec.ofNat 5 (5 * k)
    wr_addr := fun k => BitVec.ofNat 5 (5 * k)
    wr_data := fun k => BitVec.ofNat 16 (k + 100), wr_valid := fun _ => true }

def emptyXbar : State 2 3 16 :=
  { grant := fun _ => false, bank_of_d := fun _ => 0#2, banks := fun _ => ⟨fun _ => 0#16, 0#16⟩ }

theorem bankXbar_refines_oneBank :
    (∃ flat : Nat → BitVec 5 → BitVec 16,
      flat 1 = applyWrites (grantedWrites oneBank) (flat 0)
        ∧ (trace (fun _ => oneBank) emptyXbar 2).rdData 0 = flat 1 0#5)
      ∧ (∀ j, (trace (fun _ => oneBank) emptyXbar 2).grant j = true ↔ j = 0)
      ∧ ∀ j, oneBank.wrGrant j = true ↔ j = 0 := by
  obtain ⟨-, ⟨flat, -, hwrites, hreads⟩, hgrants, hwrGrants⟩ :=
    @bankXbar_refines 2 3 16 true (fun _ => oneBank) (fun _ => rfl)
      (fun _ => rfl) emptyXbar
  have hread : ∀ j, bankOf true (oneBank.req_addr j) = 0#2 := by decide
  have hwrite : ∀ j, bankOf true (oneBank.wr_addr j) = 0#2 := by decide
  obtain ⟨k, -, hmin, hgrant⟩ := hgrants 1 0#2 ⟨0, hread 0⟩
  obtain ⟨l, -, hlow, hwrGrant⟩ := hwrGrants 1 0#2 ⟨0, rfl, hwrite 0⟩
  obtain rfl : k = 0 := Fin.le_zero_iff.mp (hmin 0 (hread 0))
  obtain rfl : l = 0 := Fin.le_zero_iff.mp (hlow 0 rfl (hwrite 0))
  exact ⟨⟨flat, (hwrites 0).2, hreads 1 0 ((hgrant 0 (hread 0)).mpr rfl)⟩,
    fun j => hgrant j (hread j), fun j => hwrGrant j (hwrite j)⟩

end EclipseNpu.Rtl.BankXbar

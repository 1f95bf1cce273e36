import EclipseNpu.Rtl.DmaRefines
import EclipseNpu.Rtl.BankXbar

/-!
# Rtl — DmaXbar

The write ports of the engine on the write ports of the crossbar: 32 banks,
the same address width, hashing off. The words of a cycle are numbered from
the address in the last pipeline stage on, slot A before slot B, at most 16
of them (`wrPort_offset`), so they go to different banks and all are granted.
Whatever the descriptor, the walk over its bursts ends (`exists_walk`).
-/

namespace EclipseNpu.Rtl

open EclipseNpu.Lib EclipseNpu.Runtime
open EclipseNpu.Rtl.BankXbar (bankOf grantedWrites)

variable {AW LAW LAST : Nat}

/-! ## The walk of a descriptor -/

/-- The registers at the start of burst `k`. -/
def Desc.cursorAt (d : Desc) : Nat → Cursor
  | 0 => State.firstCursor d
  | k + 1 => burstNext d (d.cursorAt k)

/-- What the registers keep from burst to burst. -/
structure Desc.Inside (d : Desc) (c : Cursor) : Prop where
  row : c.row.toNat ≤ d.rows.toNat
  left : c.left.toNat ≤ d.rowBytes.toNat
  last : c.row.toNat = d.rows.toNat → c.left.toNat = d.rowBytes.toNat

/-- What is left of the tile. -/
def Desc.rest (d : Desc) (c : Cursor) : Nat :=
  (d.rows.toNat - c.row.toNat) * 4294967296 + c.left.toNat

section Walk

variable {d : Desc} {c : Cursor}

/-- A burst ends its row or leaves some of it. -/
theorem burstNext_row (d : Desc) (hrow : c.row.toNat < d.rows.toNat) :
    ((burstTake c).toNat = c.left.toNat
        ∧ (burstNext d c).row.toNat = c.row.toNat + 1
        ∧ (burstNext d c).left = d.rowBytes
        ∧ (burstNext d c).rstart = c.rstart + d.srcStride)
      ∨ (0 < (burstTake c).toNat ∧ (burstTake c).toNat < c.left.toNat
        ∧ (burstNext d c).row = c.row
        ∧ (burstNext d c).left.toNat = c.left.toNat - (burstTake c).toNat
        ∧ (burstNext d c).rstart = c.rstart) := by
  have hraw := burstLeftRaw_toNat c
  have htake := burstTake_toNat c
  have hlo := (burstLo c).isLt
  have hrows := d.rows.isLt
  rw [burstNext]
  by_cases hend : burstLeftRaw c = 0#32
  · rw [if_pos hend]
    rw [hend] at hraw
    have hzero : (0#32).toNat = 0 := rfl
    refine .inl ⟨by omega, ?_, rfl, rfl⟩
    show (c.row + 1#32).toNat = _
    rw [BitVec.toNat_add]
    show (c.row.toNat + 1) % 4294967296 = _
    omega
  · rw [if_neg hend]
    have hpos : (burstLeftRaw c).toNat ≠ 0 := fun h =>
      hend (BitVec.eq_of_toNat_eq h)
    exact .inr ⟨by omega, by omega, rfl, hraw, rfl⟩

/-- A burst stays inside the tile and makes progress. -/
theorem Desc.Inside.next (h : d.Inside c) (hrow : c.row.toNat < d.rows.toNat) :
    d.Inside (burstNext d c) ∧ d.rest (burstNext d c) < d.rest c := by
  have hbytes := d.rowBytes.isLt
  have hleft := h.left
  unfold Desc.rest
  rcases burstNext_row d hrow with ⟨-, hr, hl, -⟩ | ⟨hpos, hlt, hr, hl, -⟩
  · refine ⟨⟨by omega, by rw [hl], fun _ => by rw [hl]⟩, ?_⟩
    rw [hr, hl]
    omega
  · refine ⟨⟨by rw [hr]; omega, by omega, fun hlast => ?_⟩, ?_⟩
    · rw [hr] at hlast
      omega
    · rw [hr, hl]
      omega

theorem inside_first (d : Desc) : d.Inside (State.firstCursor d) where
  row := Nat.zero_le _
  left := Nat.le_refl _
  last _ := rfl

/-- **Every aligned descriptor has finitely many bursts.** -/
theorem Desc.exists_walk (h : d.alignedOk = true) :
    ∃ bursts, Walk d d.cursorAt bursts := by
  have hend : ∃ k, ¬ (d.cursorAt k).row < d.rows := by
    by_contra hall
    push Not at hall
    have hrun : ∀ k, d.Inside (d.cursorAt k)
        ∧ d.rest (d.cursorAt k) + k ≤ d.rest (d.cursorAt 0) := by
      intro k
      induction k with
      | zero => exact ⟨inside_first d, (Nat.add_zero _).le⟩
      | succ k ih =>
          obtain ⟨hin, hle⟩ := ih
          obtain ⟨hin', hlt⟩ := hin.next (BitVec.lt_def.mp (hall k))
          have hnext : d.cursorAt (k + 1) = burstNext d (d.cursorAt k) := rfl
          rw [hnext]
          exact ⟨hin', by omega⟩
    have hlate := (hrun (d.rest (d.cursorAt 0) + 1)).2
    omega
  refine ⟨Nat.find hend, h, rfl, fun _ _ => rfl, fun k hk => ?_⟩
  constructor
  · intro hlt
    rcases Nat.lt_or_eq_of_le hk with hk | hk
    · exact hk
    · exact absurd (hk ▸ hlt) (Nat.find_spec hend)
  · intro hlt
    exact not_not.mp (Nat.find_min hend hlt)

/-- Rows of whole words that start at even addresses. -/
structure Desc.Even (d : Desc) (c : Cursor) : Prop where
  left : c.left.toNat % 2 = 0
  rstart : c.rstart.toNat % 2 = 0

theorem rowBytes_even (d : Desc) : d.rowBytes.toNat % 2 = 0 := by
  rw [Desc.rowBytes, BitVec.toNat_shiftLeft, Nat.shiftLeft_eq]
  show d.cols.toNat * 2 % 4294967296 % 2 = 0
  omega

theorem aligned_ddr (h : d.alignedOk = true) : d.ddrAddr.toNat % 2 = 0 := by
  rw [Desc.alignedOk, Bool.and_eq_true, beq_iff_eq, beq_iff_eq] at h
  have hlow := congrArg BitVec.toNat h.2
  rw [BitVec.extractLsb'_toNat, Nat.shiftRight_zero] at hlow
  change d.ddrAddr.toNat % 16 = 0 at hlow
  omega

/-- Every burst takes whole words. -/
theorem Desc.Even.take (h : d.Even c) : (burstTake c).toNat % 2 = 0 := by
  have hleft := h.left
  have hstart := h.rstart
  have htake := burstTake_toNat c
  have hlo : (burstLo c).toNat % 2 = 0 := by
    rw [burstLo]
    split
    · rw [BitVec.extractLsb'_toNat, Nat.shiftRight_zero]
      omega
    · rfl
  omega

theorem Desc.Even.next (h : d.Even c) (hstride : d.srcStride.toNat % 2 = 0)
    (hrow : c.row.toNat < d.rows.toNat) : d.Even (burstNext d c) := by
  have htake := h.take
  have hleft := h.left
  have hstart := h.rstart
  rcases burstNext_row d hrow with ⟨-, -, hl, hs⟩ | ⟨-, -, -, hl, hs⟩
  · refine ⟨by rw [hl]; exact rowBytes_even d, ?_⟩
    rw [hs, BitVec.toNat_add]
    omega
  · exact ⟨by omega, by rw [hs]; exact hstart⟩

/-- The words taken so far: whole rows, and a part of the current one. -/
theorem takenBefore_cursorAt {bursts : Nat} (w : Walk d d.cursorAt bursts)
    (hstride : d.srcStride.toNat % 2 = 0) {k : Nat} (hk : k ≤ bursts) :
    d.Inside (d.cursorAt k) ∧ d.Even (d.cursorAt k)
      ∧ takenBefore d.cursorAt k
        = (d.cursorAt k).row.toNat * (d.rowBytes.toNat / 2)
          + (d.rowBytes.toNat - (d.cursorAt k).left.toNat) / 2 := by
  induction k with
  | zero =>
      refine ⟨inside_first d, ⟨rowBytes_even d, aligned_ddr w.aligned⟩, ?_⟩
      show 0 = 0 * _ + (d.rowBytes.toNat - d.rowBytes.toNat) / 2
      omega
  | succ k ih =>
      obtain ⟨hin, heven, hwords⟩ := ih (by omega)
      have hrow := BitVec.lt_def.mp ((w.row_lt k (by omega)).mpr (by omega))
      refine ⟨(hin.next hrow).1, heven.next hstride hrow, ?_⟩
      have htake := heven.take
      have hleft := hin.left
      have heleft := heven.left
      have hbytes := rowBytes_even d
      rw [takenBefore, hwords, Desc.cursorAt]
      rcases burstNext_row d hrow with ⟨hall, hr, hl, -⟩ | ⟨-, hlt, hr, hl, -⟩
      · rw [hr, hl, Nat.add_mul, Nat.one_mul]
        omega
      · rw [hr, hl]
        omega

/-- All bursts together take the rows. -/
theorem takenBefore_bursts {bursts : Nat} (w : Walk d d.cursorAt bursts)
    (hstride : d.srcStride.toNat % 2 = 0) :
    takenBefore d.cursorAt bursts = d.rows.toNat * (d.rowBytes.toNat / 2) := by
  obtain ⟨hin, -, hwords⟩ := takenBefore_cursorAt w hstride (Nat.le_refl _)
  have hend : ¬ (d.cursorAt bursts).row.toNat < d.rows.toNat := fun hlt =>
    Nat.lt_irrefl _ ((w.row_lt bursts (Nat.le_refl _)).mp (BitVec.lt_def.mpr hlt))
  have hrow : (d.cursorAt bursts).row.toNat = d.rows.toNat := by
    have := hin.row
    omega
  rw [hwords, hin.last hrow, hrow, Nat.sub_self, Nat.zero_div, Nat.add_zero]

end Walk

/-! ## The ports of a cycle -/

/-- A pipeline stage: slot B fires only with slot A, which carries at most 8
words. -/
structure PlEntry.InOrder (e : PlEntry AW) : Prop where
  both : e.v1 = true → e.v0 = true
  words : e.v0 = true → e.n0.toNat ≤ 8

theorem entry_inOrder (d : Desc) (s : State AW LAST) : (s.entry d).InOrder where
  both h1 := by
    have h1 : s.issueV1 d = true := h1
    rw [State.issueV1, Bool.and_eq_true] at h1
    exact h1.1
  words _ := by
    have hle := burst_le_block s.cur
    have hn := (lane_fields s.cur).2
    show ((burstTake s.cur).extractLsb' 1 4).toNat ≤ 8
    omega

/-- **The pipeline stays in order**, resets included. -/
theorem Reachable.inOrder {s : State AW LAST} (h : Reachable s) (i : Fin (LAST + 1)) :
    (s.pl i).InOrder := by
  induction h generalizing i with
  | reset s => exact ⟨fun h => h, fun h => nomatch h⟩
  | @step inp s _ ih =>
      rw [State.step]
      by_cases hr : inp.rst_n = true
      · rw [if_pos hr]
        show (shiftIn (s.entry inp.desc) s.pl i).InOrder
        rw [shiftIn]
        split
        · exact entry_inOrder inp.desc s
        · exact ih _
      · rw [if_neg hr]
        exact ⟨fun h => h, fun h => nomatch h⟩

/-- The number of a port's word in its cycle. -/
def PlEntry.wordAt (e : PlEntry AW) (k : Nat) : Nat :=
  if k < 8 then k - e.lo0.toNat else e.n0.toNat + (k - 8 - e.lo1.toNat)

section Ports

variable {s : State AW LAST} {rdata : Fin 2 → BitVec 128} {rvalid : Fin 2 → Bool}

/-- A port that writes is a lane of its slot. -/
theorem wrPort_lane {k : Nat} {v : BitVec AW × BitVec 16}
    (hv : s.wrPort rdata rvalid k = some v) :
    (k < 8 ∧ (s.pl (Fin.last LAST)).v0 = true
        ∧ (s.pl (Fin.last LAST)).lo0.toNat ≤ k
        ∧ k < (s.pl (Fin.last LAST)).lo0.toNat + (s.pl (Fin.last LAST)).n0.toNat
        ∧ v.1 = (s.pl (Fin.last LAST)).addr
          + BitVec.ofNat AW (k - (s.pl (Fin.last LAST)).lo0.toNat))
      ∨ (8 ≤ k ∧ k < 16 ∧ (s.pl (Fin.last LAST)).v1 = true
        ∧ (s.pl (Fin.last LAST)).lo1.toNat ≤ k - 8
        ∧ v.1 = (s.pl (Fin.last LAST)).addr + (s.pl (Fin.last LAST)).n0.setWidth AW
          + BitVec.ofNat AW (k - 8 - (s.pl (Fin.last LAST)).lo1.toNat)) := by
  rw [State.wrPort] at hv
  split_ifs at hv with h8 h16
  · left
    cases hf : (s.pl (Fin.last LAST)).v0 && rvalid 0 with
    | false =>
        rw [hf] at hv
        cases hv
    | true =>
        rw [hf, writeLane_eq _ _ _ _ h8] at hv
        rw [Bool.and_eq_true] at hf
        split_ifs at hv with hlane
        exact ⟨h8, hf.1, hlane.1, hlane.2, (congrArg Prod.fst (Option.some.inj hv)).symm⟩
  · right
    cases hf : (s.pl (Fin.last LAST)).v1 && rvalid 1 with
    | false =>
        rw [hf] at hv
        cases hv
    | true =>
        rw [hf, writeLane_eq _ _ _ _ (by omega)] at hv
        rw [Bool.and_eq_true] at hf
        split_ifs at hv with hlane
        exact ⟨by omega, h16, hf.1, hlane.1,
          (congrArg Prod.fst (Option.some.inj hv)).symm⟩

/-- **A port that writes, writes one of the 16 words from the address of its
stage on.** -/
theorem wrPort_wordAt (h : Reachable s) {k : Nat} {v : BitVec AW × BitVec 16}
    (hv : s.wrPort rdata rvalid k = some v) :
    (s.pl (Fin.last LAST)).wordAt k < 16
      ∧ v.1 = (s.pl (Fin.last LAST)).addr
        + BitVec.ofNat AW ((s.pl (Fin.last LAST)).wordAt k) := by
  have hord := h.inOrder (Fin.last LAST)
  unfold PlEntry.wordAt
  rcases wrPort_lane hv with ⟨h8, h0, hlo, hlt, hv⟩ | ⟨h8, h16, h1, hlo, hv⟩
  · have hn := hord.words h0
    rw [if_pos h8]
    exact ⟨by omega, hv⟩
  · have hn := hord.words (hord.both h1)
    rw [if_neg (by omega)]
    refine ⟨by omega, ?_⟩
    rw [hv, setWidth_words AW rfl, BitVec.add_assoc, ← BitVec.ofNat_add]

/-- No two ports write the same word. -/
theorem wordAt_inj {j k : Nat} {u v : BitVec AW × BitVec 16}
    (hu : s.wrPort rdata rvalid j = some u) (hv : s.wrPort rdata rvalid k = some v)
    (heq : (s.pl (Fin.last LAST)).wordAt j = (s.pl (Fin.last LAST)).wordAt k) :
    j = k := by
  unfold PlEntry.wordAt at heq
  rcases wrPort_lane hu with ⟨hj8, -, hjlo, hjlt, -⟩ | ⟨hj8, -, -, hjlo, -⟩
  · rcases wrPort_lane hv with ⟨hk8, -, hklo, -, -⟩ | ⟨hk8, -, -, hklo, -⟩
    · rw [if_pos hj8, if_pos hk8] at heq
      omega
    · -- slot B starts where slot A ends
      rw [if_pos hj8, if_neg (by omega)] at heq
      omega
  · rcases wrPort_lane hv with ⟨hk8, -, hklo, hklt, -⟩ | ⟨hk8, -, -, hklo, -⟩
    · rw [if_neg (by omega), if_pos hk8] at heq
      omega
    · rw [if_neg (by omega), if_neg (by omega)] at heq
      omega

end Ports

/-! ## On the crossbar -/

/-- The write ports on a crossbar of the same size, hashing off. -/
def State.onXbar (s : State (LAW + 5) LAST) (rdata : Fin 2 → BitVec 128)
    (rvalid : Fin 2 → Bool) (i : BankXbar.Input 5 LAW 16) : BankXbar.Input 5 LAW 16 :=
  { i with
    hash_en := false
    wr_valid := fun k => (s.wrPort rdata rvalid k).isSome
    wr_addr := fun k => ((s.wrPort rdata rvalid k).map Prod.fst).getD (BitVec.ofNat _ 0)
    wr_data := fun k => ((s.wrPort rdata rvalid k).map Prod.snd).getD (BitVec.ofNat _ 0) }

/-- Without hashing the bank is the address modulo 32. -/
theorem bankOf_toNat (a : BitVec (LAW + 5)) (j : Nat) :
    (bankOf false (a + BitVec.ofNat (LAW + 5) j)).toNat = (a.toNat + j) % 32 := by
  have hdvd : 32 ∣ 2 ^ (LAW + 5) := Nat.pow_dvd_pow 2 (show 5 ≤ LAW + 5 by omega)
  show ((a + BitVec.ofNat (LAW + 5) j).extractLsb' 0 5).toNat = _
  rw [BitVec.extractLsb'_toNat, Nat.shiftRight_zero, BitVec.toNat_add, BitVec.toNat_ofNat]
  show (_ % 2 ^ (LAW + 5)) % 32 = _
  rw [Nat.add_mod_mod, Nat.mod_mod_of_dvd _ hdvd]

section OnXbar

variable {s : State (LAW + 5) LAST} {rdata : Fin 2 → BitVec 128}
  {rvalid : Fin 2 → Bool} {i : BankXbar.Input 5 LAW 16}

theorem onXbar_valid {k : Fin (2 ^ 5)} (hk : (s.onXbar rdata rvalid i).wr_valid k = true) :
    ∃ v, s.wrPort rdata rvalid k = some v
      ∧ (s.onXbar rdata rvalid i).wr_addr k = v.1
      ∧ (s.onXbar rdata rvalid i).wr_data k = v.2 := by
  obtain ⟨v, hv⟩ := Option.isSome_iff_exists.mp hk
  refine ⟨v, hv, ?_, ?_⟩
  · show ((s.wrPort rdata rvalid k).map Prod.fst).getD _ = _
    rw [hv]
    rfl
  · show ((s.wrPort rdata rvalid k).map Prod.snd).getD _ = _
    rw [hv]
    rfl

/-- **The words of a cycle go to different banks.** -/
theorem onXbar_banks (h : Reachable s) {j k : Fin (2 ^ 5)}
    (hj : (s.onXbar rdata rvalid i).wr_valid j = true)
    (hk : (s.onXbar rdata rvalid i).wr_valid k = true)
    (hbank : bankOf false ((s.onXbar rdata rvalid i).wr_addr j)
      = bankOf false ((s.onXbar rdata rvalid i).wr_addr k)) : j = k := by
  obtain ⟨u, hu, hua, -⟩ := onXbar_valid hj
  obtain ⟨v, hv, hva, -⟩ := onXbar_valid hk
  obtain ⟨hju, hua'⟩ := wrPort_wordAt h hu
  obtain ⟨hkv, hva'⟩ := wrPort_wordAt h hv
  rw [hua, hva, hua', hva'] at hbank
  have hmod := congrArg BitVec.toNat hbank
  rw [bankOf_toNat, bankOf_toNat] at hmod
  exact Fin.ext (wordAt_inj hu hv (by omega))

/-- So the crossbar grants them all. -/
theorem onXbar_granted (h : Reachable s) {k : Fin (2 ^ 5)} :
    (s.onXbar rdata rvalid i).wrGrant k = true
      ↔ (s.onXbar rdata rvalid i).wr_valid k = true :=
  ⟨BankXbar.wr_valid_of_wrGrant, fun hk =>
    BankXbar.wrGrant_of_alone hk fun _ hj hbank => onXbar_banks h hj hk hbank⟩

/-- What is granted is what the ports assert, in port order. -/
theorem onXbar_grantedWrites (h : Reachable s) :
    grantedWrites (s.onXbar rdata rvalid i)
      = (List.range 32).filterMap (s.wrPort rdata rvalid) := by
  have hports : (List.range 32).filterMap (s.wrPort rdata rvalid)
      = (BankXbar.slots 5).filterMap fun k => s.wrPort rdata rvalid k.val := by
    rw [show List.range 32 = (BankXbar.slots 5).map Fin.val from
      (List.map_coe_finRange_eq_range (n := 32)).symm, List.filterMap_map]
    rfl
  rw [hports]
  refine List.filterMap_congr fun k _ => ?_
  by_cases hk : (s.onXbar rdata rvalid i).wr_valid k = true
  · obtain ⟨v, hv, ha, hd⟩ := onXbar_valid hk
    rw [if_pos ((onXbar_granted h).mpr hk), ha, hd, hv]
  · rw [if_neg (mt (onXbar_granted h).mp hk)]
    exact (Option.not_isSome_iff_eq_none.mp hk).symm

end OnXbar

/-! ## A transfer through the crossbar -/

/-- The address of word `t` of a transfer. -/
def Desc.wordAddr (d : Desc) (AW t : Nat) : BitVec AW :=
  d.sramAddr.extractLsb' 1 AW + BitVec.ofNat AW t

/-- A burst writes its words in order. -/
theorem burstWords_addrs (d : Desc) (c : Cursor) (T : Nat) (rdata : BitVec 128) :
    (burstWords c (d.sramAddr.extractLsb' 1 AW + BitVec.ofNat AW T) rdata).map Prod.fst
      = (List.range ((burstTake c).toNat / 2)).map fun j => d.wordAddr AW (T + j) := by
  rw [burstWords, List.map_map]
  refine List.map_congr_left fun j _ => ?_
  show _ + BitVec.ofNat AW T + BitVec.ofNat AW j = d.sramAddr.extractLsb' 1 AW + _
  rw [BitVec.add_assoc, ← BitVec.ofNat_add]

theorem range_append_map (d : Desc) (m n : Nat) :
    (List.range m).map (d.wordAddr AW)
        ++ (List.range n).map (fun j => d.wordAddr AW (m + j))
      = (List.range (m + n)).map (d.wordAddr AW) := by
  rw [List.range_add, List.map_append, List.map_map]
  rfl

section Transfer

variable {d : Desc} {start : Nat → Bool} {σ : Nat → State (LAW + 5) LAST}
  {rdata : Nat → Fin 2 → BitVec 128} {rvalid : Nat → Fin 2 → Bool}

theorem Transfer.reachable_at {d : Desc} {start : Nat → Bool} {σ : Nat → State AW LAST}
    (t : Transfer d start σ) (c : Nat) : Reachable (σ c) := by
  induction c with
  | zero => exact t.reachable
  | succ c ih =>
      rw [t.step c]
      exact ih.step _

variable (rdata rvalid) in
/-- The addresses the crossbar grants in the first `n` cycles, in order. -/
def grantedAddrs (σ : Nat → State (LAW + 5) LAST) (xin : Nat → BankXbar.Input 5 LAW 16)
    (n : Nat) : List (BitVec (LAW + 5)) :=
  (List.range n).flatMap fun c =>
    (grantedWrites ((σ c).onXbar (rdata c) (rvalid c) (xin c))).map Prod.fst

theorem grantedAddrs_succ (xin : Nat → BankXbar.Input 5 LAW 16) (n : Nat) :
    grantedAddrs rdata rvalid σ xin (n + 1) = grantedAddrs rdata rvalid σ xin n
      ++ (grantedWrites ((σ n).onXbar (rdata n) (rvalid n) (xin n))).map Prod.fst := by
  unfold grantedAddrs
  rw [List.range_succ, List.flatMap_append, List.flatMap_singleton]

/-- Nothing is granted before the first answer. -/
theorem grantedAddrs_before (t : Transfer d start σ)
    (xin : Nat → BankXbar.Input 5 LAW 16) {n : Nat} (hn : n ≤ 2 + (LAST + 1)) :
    grantedAddrs rdata rvalid σ xin n = [] := by
  induction n with
  | zero => rfl
  | succ n ih =>
      rw [grantedAddrs_succ, ih (by omega), onXbar_grantedWrites (t.reachable_at n),
        t.ports_before (by decide) (by omega)]
      rfl

/-- **The granted words of the run**: those of the bursts issued, in order. -/
theorem grantedAddrs_run (t : Transfer d start σ) {pos : Nat → Cursor} {bursts : Nat}
    (w : Walk d pos bursts)
    (hvalid : ∀ c slot, rvalid (c + (LAST + 1)) slot = (σ c).ddrRen d slot)
    (xin : Nat → BankXbar.Input 5 LAW 16) {c : Nat} (hc : c ≤ lastRun LAST bursts + 1) :
    grantedAddrs rdata rvalid σ xin (2 + c + (LAST + 1))
      = (List.range (takenBefore pos (min (2 * c) bursts))).map
        (d.wordAddr (LAW + 5)) := by
  induction c with
  | zero =>
      rw [grantedAddrs_before t xin (by omega), Nat.mul_zero, Nat.zero_min]
      rfl
  | succ c ih =>
      rw [show 2 + (c + 1) + (LAST + 1) = 2 + c + (LAST + 1) + 1 by omega,
        grantedAddrs_succ, ih (by omega), onXbar_grantedWrites (t.reachable_at _),
        t.ports_run w (by decide) hvalid (show c ≤ _ by omega)]
      by_cases hc0 : 2 * c < bursts
      · rw [if_pos hc0, List.map_append, burstWords_addrs, ← List.append_assoc,
          Nat.min_eq_left (by omega), range_append_map]
        by_cases hc1 : 2 * c + 1 < bursts
        · rw [if_pos hc1, burstWords_addrs, Nat.min_eq_left (by omega)]
          exact range_append_map d _ _
        · rw [if_neg hc1, List.map_nil, List.append_nil,
            show min (2 * (c + 1)) bursts = 2 * c + 1 by omega]
          rfl
      · rw [if_neg hc0, if_neg (show ¬ 2 * c + 1 < bursts by omega),
          Nat.min_eq_right (by omega), Nat.min_eq_right (by omega)]
        exact List.append_nil _

/-- One edge of the crossbar applies every word the ports assert. -/
theorem onXbar_step {s : State (LAW + 5) LAST} (h : Reachable s)
    (rdata : Fin 2 → BitVec 128) (rvalid : Fin 2 → Bool) (i : BankXbar.Input 5 LAW 16)
    (banks : BankXbar.State 5 LAW 16) :
    (BankXbar.step (s.onXbar rdata rvalid i) banks).flat false
      = applyWrites ((List.range 32).filterMap (s.wrPort rdata rvalid))
        (banks.flat false) := by
  have hstep := BankXbar.flat_step (i := s.onXbar rdata rvalid i) (s := banks)
  rw [onXbar_grantedWrites h] at hstep
  exact hstep

/-- The banks behind the crossbar are an SRAM the engine can write to. -/
theorem xbar_sramTrace (t : Transfer d start σ) {xin : Nat → BankXbar.Input 5 LAW 16}
    {banks : Nat → BankXbar.State 5 LAW 16}
    (hbanks : ∀ c, banks (c + 1)
      = BankXbar.step ((σ c).onXbar (rdata c) (rvalid c) (xin c)) (banks c)) :
    SramTrace 32 σ rdata rvalid fun c => (banks c).flat false := by
  intro c
  refine ⟨List.range 32, List.Perm.refl _, ?_⟩
  show (banks (c + 1)).flat false = _
  rw [hbanks c]
  exact onXbar_step (t.reachable_at c) ..

end Transfer

/-- **Engine and crossbar together** do what `execDmaLoad` does: when `done`
rises, the banks hold the word writes of the simulator. -/
theorem dma_xbar_refines (hLAW : LAW ≤ 26) {p : DMAParam} (hp : p.NoWrap true)
    (hsram : p.sramAddr.toNat % 16 = 0) (hddr : p.ddrAddr.toNat % 16 = 0)
    (hsrc : p.srcStride.toNat % 2 = 0) (hdst : p.dstStride.toNat = p.cols.toNat * 2)
    {rd : Nat → UInt8} {start : Nat → Bool} {σ : Nat → State (LAW + 5) LAST}
    (t : Transfer (descPorts p) start σ) {rdata : Nat → Fin 2 → BitVec 128}
    {rvalid : Nat → Fin 2 → Bool} (hret : DdrReturns (descPorts p) rd σ rdata rvalid)
    {xin : Nat → BankXbar.Input 5 LAW 16} {banks : Nat → BankXbar.State 5 LAW 16}
    (hbanks : ∀ c, banks (c + 1)
      = BankXbar.step ((σ c).onXbar (rdata c) (rvalid c) (xin c)) (banks c)) :
    ∃ n, (σ n).done = true ∧ (∀ c < n, (σ c).done = false)
      ∧ (banks n).flat false
        = applyWrites ((dmaLoadWords p rd).map (portWord (LAW + 5)))
          ((banks 0).flat false) := by
  have hwords := descPorts_words hp hsram hddr hsrc
  obtain ⟨hdone, hfirst⟩ := t.done_first hwords.fits.walk
  exact ⟨_, hdone, hfirst, memory_done (by omega) (by omega) (by decide) hwords
    (by omega) hdst t hret (xbar_sramTrace t hbanks)⟩

/-- **The writes never collide.** In every reachable state, whatever the DDR
returns, the asserted words go to different banks, so all are granted and the
edge applies every one of them; and a transfer has been granted each word of
its rows, once and in order, when `done` rises. -/
theorem dma_writes_granted :
    (∀ s : State (LAW + 5) LAST, Reachable s → ∀ rdata rvalid
        (i : BankXbar.Input 5 LAW 16),
      (∀ j k, (s.onXbar rdata rvalid i).wr_valid j = true →
        (s.onXbar rdata rvalid i).wr_valid k = true →
        bankOf false ((s.onXbar rdata rvalid i).wr_addr j)
          = bankOf false ((s.onXbar rdata rvalid i).wr_addr k) → j = k)
      ∧ (∀ k, (s.onXbar rdata rvalid i).wr_valid k = true →
        (s.onXbar rdata rvalid i).wrGrant k = true)
      ∧ ∀ banks, (BankXbar.step (s.onXbar rdata rvalid i) banks).flat false
        = applyWrites ((List.range 32).filterMap (s.wrPort rdata rvalid))
          (banks.flat false))
    ∧ ∀ d : Desc, d.alignedOk = true → d.srcStride.toNat % 2 = 0 →
      ∀ start (σ : Nat → State (LAW + 5) LAST), Transfer d start σ →
      ∀ rdata rvalid, (∀ c slot, rvalid (c + (LAST + 1)) slot = (σ c).ddrRen d slot) →
      ∀ xin, ∃ n, (σ n).done = true ∧ (∀ c < n, (σ c).done = false)
        ∧ grantedAddrs rdata rvalid σ xin n
          = (List.range (d.rows.toNat * (d.rowBytes.toNat / 2))).map
            (d.wordAddr (LAW + 5)) := by
  constructor
  · intro s h rdata rvalid i
    exact ⟨fun j k => onXbar_banks h, fun k => (onXbar_granted h).mpr,
      onXbar_step h rdata rvalid i⟩
  · intro d haligned hstride start σ t rdata rvalid hvalid xin
    obtain ⟨bursts, w⟩ := d.exists_walk haligned
    obtain ⟨hdone, hfirst⟩ := t.done_first w
    refine ⟨lastRun LAST bursts + 3, hdone, hfirst, ?_⟩
    rw [← takenBefore_bursts w hstride]
    rcases Transfer.lastRun_answers LAST bursts with ⟨hlast, hall⟩ | ⟨rfl, hlast⟩
    · rw [hlast, grantedAddrs_run t w hvalid xin (by omega), Nat.min_eq_right hall]
    · rw [hlast, grantedAddrs_before t xin (by omega)]
      rfl

/-- A crossbar nobody reads from. -/
def idleXbar : BankXbar.Input 5 7 16 :=
  { rst_n := true, hash_en := false, req_addr := fun _ => 0#12
    wr_addr := fun _ => 0#12, wr_data := fun _ => 0#16, wr_valid := fun _ => false }

/-- The rows of the 15x31 tile are 62 bytes apart from block to block, so
cycles that end one row and start the next are among these. -/
theorem dma_writes_granted_loadMatmulLhs :
    (∃ n, (matmulLhsRun n).done = true
      ∧ grantedAddrs (benchData (descPorts loadMatmulLhs) addressBytes matmulLhsRun)
          (benchValid (descPorts loadMatmulLhs) matmulLhsRun) matmulLhsRun
          (fun _ => idleXbar) n
        = (List.range 465).map ((descPorts loadMatmulLhs).wordAddr 12))
    ∧ ∀ c k, ((matmulLhsRun c).onXbar
          (benchData (descPorts loadMatmulLhs) addressBytes matmulLhsRun c)
          (benchValid (descPorts loadMatmulLhs) matmulLhsRun c) idleXbar).wr_valid k = true →
        ((matmulLhsRun c).onXbar
          (benchData (descPorts loadMatmulLhs) addressBytes matmulLhsRun c)
          (benchValid (descPorts loadMatmulLhs) matmulLhsRun c) idleXbar).wrGrant k = true := by
  have t := simulate_transfer (descPorts loadMatmulLhs) (fun _ => true) rfl powerOn
  obtain ⟨hgrant, hwords⟩ := @dma_writes_granted 7 3
  refine ⟨?_, fun c k => (hgrant _ (t.reachable_at c) _ _ _).2.1 k⟩
  obtain ⟨n, hdone, -, haddrs⟩ := hwords (descPorts loadMatmulLhs) (by decide) (by decide)
    _ _ t _ _ (bench_returns (descPorts loadMatmulLhs) addressBytes matmulLhsRun).valid
    (fun _ => idleXbar)
  exact ⟨n, hdone, haddrs⟩

end EclipseNpu.Rtl

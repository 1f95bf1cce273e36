import EclipseNpu.Rtl.BankXbar
import EclipseNpu.Lib.Rounds
import Mathlib.Data.Int.CardIntervalMod

/-!
# Rtl — ReadBench

The read side of the crossbar as `run_reads` of `rtl/tb/bank/tb_bank_xbar.cpp`
drives it: the pending addresses in the first slots, address 0 in the others,
what is granted taken out after every edge. The unused slots ask for bank 0 like
everybody else but come last, so each cycle is a round that takes one address of
every bank (`turn_pending`), and the cycles are as many as the fullest bank has
addresses (`runReads_worstBank`).
-/

namespace EclipseNpu.Rtl.BankXbar

open EclipseNpu.Lib

variable {BW LAW DW : Nat}

/-! ## The bench -/

/-- The ports with `n` pending addresses in the slots `0 .. n-1`. -/
def driveReads (ports : Input BW LAW DW) (hash_en : Bool) (a : List (BitVec (LAW + BW))) :
    Input BW LAW DW :=
  { ports with hash_en := hash_en, req_addr := fun i => a.getD i (BitVec.ofNat _ 0) }

/-- The `grant` port, by number. -/
def State.granted (s : State BW LAW DW) (i : Nat) : Bool :=
  if h : i < 2 ^ BW then s.grant ⟨i, h⟩ else false

/-- `if (!top->grant[i]) a[keep++] = a[i]`. -/
def keepPending {A : Type} (grant : Nat → Bool) (a : List A) : List A :=
  (a.zipIdx.filter fun x => !grant x.2).map Prod.fst

/-- The crossbar and the variables of `run_reads`; `a` is `a[0 .. n-1]`. -/
structure ReadBench (BW LAW DW : Nat) where
  top : State BW LAW DW
  a : List (BitVec (LAW + BW))
  cycles : Nat
  counts : BitVec BW → BitVec 6

/-- The body of the loop. `counts` is taken before the first edge. -/
def ReadBench.turn (ports : Input BW LAW DW) (hash_en : Bool) (t : ReadBench BW LAW DW) :
    ReadBench BW LAW DW :=
  let i := driveReads ports hash_en t.a
  let top := step i t.top
  { top := top
    a := keepPending top.granted t.a
    cycles := t.cycles + 1
    counts := if t.cycles = 0 then i.bankCnt else t.counts }

/-- `while (n > 0)`; `none` when the fuel runs out. -/
def whilePending (ports : Input BW LAW DW) (hash_en : Bool) :
    Nat → ReadBench BW LAW DW → Option (ReadBench BW LAW DW)
  | 0, t => if t.a.length > 0 then none else some t
  | fuel + 1, t =>
      if t.a.length > 0 then whilePending ports hash_en fuel (t.turn ports hash_en) else some t

/-- `run_reads`. -/
def runReads (fuel : Nat) (ports : Input BW LAW DW) (top : State BW LAW DW)
    (a : List (BitVec (LAW + BW))) (hash_en : Bool) (counts : BitVec BW → BitVec 6) :
    Option (ReadBench BW LAW DW) :=
  whilePending ports hash_en fuel ⟨top, a, 0, counts⟩

/-- How many of the addresses the fullest bank has. -/
def worstBank (hash_en : Bool) (a : List (BitVec (LAW + BW))) : Nat :=
  worstLoad (bankNumbers BW) (bankOf hash_en) a

/-! ## One cycle -/

section Turn

variable {ports : Input BW LAW DW} {h : Bool}

theorem driveReads_addr {a : List (BitVec (LAW + BW))} {j : Fin (2 ^ BW)}
    (hj : j.val < a.length) : (driveReads ports h a).req_addr j = a[j.val] := by
  show a.getD j.val _ = _
  rw [List.getD_eq_getElem?_getD, List.getElem?_eq_getElem hj]
  rfl

/-- **A pending address is granted if no pending one before it shares its bank**;
the unused slots, all behind it, do not matter. -/
theorem granted_iff (hr : ports.rst_n = true) {a : List (BitVec (LAW + BW))}
    (hn : a.length ≤ 2 ^ BW) (s : State BW LAW DW) {k : Nat} (hk : k < a.length) :
    (step (driveReads ports h a) s).granted k = true
      ↔ bankOf h a[k] ∉ (a.take k).map (bankOf h) := by
  have hk' : k < 2 ^ BW := Nat.lt_of_lt_of_le hk hn
  have hgrant : (step (driveReads ports h a) s).granted k
      = (driveReads ports h a).reads.served ⟨k, hk'⟩ := by
    rw [State.granted, dif_pos hk']
    exact if_pos hr
  rw [hgrant, served_iff, slots, firstSlot_finRange]
  simp only [Input.readTarget, Option.some.injEq]
  rw [show (driveReads ports h a).hash_en = h from rfl, driveReads_addr hk]
  constructor
  · rintro ⟨-, hmin⟩ hmem
    obtain ⟨x, hx, hbank⟩ := List.mem_map.mp hmem
    obtain ⟨j, hj, rfl⟩ := List.mem_take_iff_getElem.mp hx
    have hja : j < a.length := by omega
    have hle := hmin ⟨j, by omega⟩ (by rw [driveReads_addr hja]; exact hbank)
    have : k ≤ j := hle
    omega
  · intro hnot
    refine ⟨trivial, fun j hj => ?_⟩
    by_contra hlt
    have hjk : j.val < k := Nat.lt_of_not_le hlt
    have hja : j.val < a.length := Nat.lt_trans hjk hk
    rw [driveReads_addr hja] at hj
    exact hnot (List.mem_map.mpr ⟨_, List.mem_take_iff_getElem.mpr ⟨j.val, by omega, rfl⟩, hj⟩)

/-- **A cycle is a round**: one address of every bank is taken. -/
theorem turn_pending (hr : ports.rst_n = true) {t : ReadBench BW LAW DW}
    (hn : t.a.length ≤ 2 ^ BW) :
    (t.turn ports h).a = later (bankOf h) [] t.a := by
  refine later_of_first _ fun k hk => ?_
  rw [Nat.zero_add]
  exact (granted_iff hr hn t.top hk).trans (by simp)

/-- `c` cycles are `c` rounds. -/
theorem turns_pending (hr : ports.rst_n = true) {t : ReadBench BW LAW DW}
    (hn : t.a.length ≤ 2 ^ BW) (c : Nat) :
    ((ReadBench.turn ports h)^[c] t).a = rounds (bankOf h) c t.a := by
  induction c generalizing t with
  | zero => rfl
  | succ c ih =>
      have hturn := turn_pending (h := h) hr hn
      have hlen : (t.turn ports h).a.length ≤ 2 ^ BW := by
        rw [hturn]
        exact (later_sublist _ _ _).length_le.trans hn
      rw [Function.iterate_succ_apply, ih hlen, hturn, rounds_succ]

theorem turns_cycles (t : ReadBench BW LAW DW) (c : Nat) :
    ((ReadBench.turn ports h)^[c] t).cycles = t.cycles + c := by
  induction c generalizing t with
  | zero => rfl
  | succ c ih =>
      rw [Function.iterate_succ_apply, ih]
      show t.cycles + 1 + c = _
      omega

/-- The loop stops at the first turn that finds nothing pending. -/
theorem whilePending_eq {t : ReadBench BW LAW DW} {c fuel : Nat} (hfuel : c ≤ fuel)
    (hdone : ((ReadBench.turn ports h)^[c] t).a = [])
    (hbusy : ∀ d < c, ((ReadBench.turn ports h)^[d] t).a ≠ []) :
    whilePending ports h fuel t = some ((ReadBench.turn ports h)^[c] t) := by
  induction c generalizing t fuel with
  | zero =>
      have hlen : ¬ t.a.length > 0 := by
        rw [show t.a = [] from hdone]
        exact Nat.lt_irrefl 0
      cases fuel with
      | zero => exact if_neg hlen
      | succ fuel => exact if_neg hlen
  | succ c ih =>
      obtain ⟨fuel, rfl⟩ : ∃ f, fuel = f + 1 := ⟨fuel - 1, by omega⟩
      have hlen : t.a.length > 0 := List.length_pos_iff.mpr (hbusy 0 (Nat.zero_lt_succ c))
      rw [whilePending, if_pos hlen]
      exact ih (Nat.le_of_succ_le_succ hfuel) hdone fun d hd => hbusy (d + 1) (by omega)

end Turn

/-! ## A pitch of its own -/

/-- `n` addresses, `P` apart. -/
def pitched (BW LAW base P n : Nat) : List (BitVec (LAW + BW)) :=
  (List.range n).map fun i => BitVec.ofNat (LAW + BW) (base + i * P)

theorem bankOf_ofNat (x : Nat) :
    (bankOf false (BitVec.ofNat (LAW + BW) x)).toNat = x % 2 ^ BW := by
  simp only [bankOf, Bool.false_eq_true, if_false, BitVec.extractLsb'_toNat,
    BitVec.toNat_ofNat, Nat.shiftRight_zero]
  exact Nat.mod_mod_of_dvd x (Nat.pow_dvd_pow 2 (Nat.le_add_left BW LAW))

/-- Two addresses share their bank when their numbers agree modulo the period of
the pitch. -/
theorem bankOf_pitched_eq_iff (base P i j : Nat) :
    bankOf false (BitVec.ofNat (LAW + BW) (base + i * P))
        = bankOf false (BitVec.ofNat (LAW + BW) (base + j * P))
      ↔ i ≡ j [MOD 2 ^ BW / Nat.gcd (2 ^ BW) P] := by
  rw [← BitVec.toNat_inj, bankOf_ofNat, bankOf_ofNat]
  constructor
  · intro h
    have hmul : i * P ≡ j * P [MOD 2 ^ BW] := Nat.ModEq.add_left_cancel' base h
    exact hmul.cancel_right_div_gcd (Nat.two_pow_pos BW)
  · intro h
    have hdvd : 2 ^ BW ∣ 2 ^ BW / Nat.gcd (2 ^ BW) P * P := by
      rw [Nat.div_mul_right_comm (Nat.gcd_dvd_left _ _),
        Nat.mul_div_assoc _ (Nat.gcd_dvd_right _ _)]
      exact Nat.dvd_mul_right _ _
    exact ((h.mul_right' P).of_dvd hdvd).add_left base

theorem countP_range {p : Nat → Prop} [DecidablePred p] (n : Nat) :
    (List.range n).countP (fun i => p i) = Nat.count p n := by
  induction n with
  | zero => rfl
  | succ n ih => simp [List.range_succ, List.countP_append, ih, Nat.count_succ]

/-- The load of the bank of one of the addresses. -/
theorem load_pitched (BW LAW base P n i : Nat) :
    load (bankOf false) (pitched BW LAW base P n)
        (bankOf false (BitVec.ofNat (LAW + BW) (base + i * P)))
      = Nat.count (· ≡ i [MOD 2 ^ BW / Nat.gcd (2 ^ BW) P]) n := by
  rw [load, pitched, List.countP_map, ← countP_range]
  refine List.countP_congr fun j _ => ?_
  simp [bankOf_pitched_eq_iff]

/-- Rounding up a quotient. -/
theorem ceil_div_eq {n T : Nat} (hT : 0 < T) :
    (n + (T - 1)) / T = n / T + if 0 < n % T then 1 else 0 := by
  have hr := Nat.mod_lt n hT
  have hn : n + (T - 1) = (n % T + (T - 1)) + T * (n / T) := by
    have := Nat.mod_add_div n T
    omega
  rw [hn, Nat.add_mul_div_left _ _ hT, Nat.add_comm]
  congr 1
  split
  · exact Nat.div_eq_of_lt_le (by omega) (by omega)
  · exact Nat.div_eq_of_lt (by omega)

/-- A common factor cancels. -/
theorem ceil_div_mul {n g T : Nat} (hg : 0 < g) (hT : 0 < T) :
    (n * g + (g * T - 1)) / (g * T) = (n + (T - 1)) / T := by
  have hlast : g * T - 1 = (g - 1) + g * (T - 1) := by
    have := Nat.mul_pos hg hT
    rw [Nat.mul_sub_one]
    have := Nat.le_mul_of_pos_right g hT
    omega
  have hdiv : (n * g + (g * T - 1)) / g = n + (T - 1) := by
    rw [hlast, ← Nat.add_assoc, Nat.add_mul_div_left _ _ hg, Nat.add_comm (n * g),
      Nat.add_mul_div_right _ _ hg, Nat.div_eq_of_lt (by omega), Nat.zero_add]
  rw [← Nat.div_div_eq_div_mul, hdiv]

/-- **The pitch law**: `ceil(n * gcd(P, NBANK) / NBANK)`. -/
theorem worstBank_pitched (BW LAW base P n : Nat) :
    worstBank false (pitched BW LAW base P n)
      = (n * Nat.gcd P (2 ^ BW) + (2 ^ BW - 1)) / 2 ^ BW := by
  have hpos := Nat.two_pow_pos BW
  have hg : 0 < Nat.gcd (2 ^ BW) P := Nat.gcd_pos_of_pos_left P hpos
  have hN := Nat.mul_div_cancel' (Nat.gcd_dvd_left (2 ^ BW) P)
  have hload := load_pitched BW LAW base P n
  rw [Nat.gcd_comm P]
  generalize Nat.gcd (2 ^ BW) P = g at hg hN hload ⊢
  generalize 2 ^ BW / g = T at hN hload
  have hT : 0 < T := Nat.pos_of_mul_pos_left (hN ▸ hpos)
  rw [← hN, ceil_div_mul hg hT, ceil_div_eq hT]
  apply Nat.le_antisymm
  · refine worstLoad_le_iff.mpr fun b _ => ?_
    by_cases hb : load (bankOf false) (pitched BW LAW base P n) b = 0
    · rw [hb]
      exact Nat.zero_le _
    · obtain ⟨x, hx, hxb⟩ := List.countP_pos_iff.mp (Nat.pos_of_ne_zero hb)
      obtain ⟨i, -, rfl⟩ := List.mem_map.mp hx
      rw [← of_decide_eq_true hxb, hload, Nat.count_modEq_card _ hT]
      split <;> split <;> omega
  · have hfirst := worstLoad_le_iff.mp (Nat.le_refl (worstBank false (pitched BW LAW base P n)))
      (bankOf false (BitVec.ofNat (LAW + BW) (base + 0 * P))) (mem_bankNumbers _)
    rw [hload 0, Nat.count_modEq_card _ hT, Nat.zero_mod] at hfirst
    exact hfirst

/-! ## The run -/

/-- The requests not yet granted before cycle `c`. -/
def waiting {n : Nat} (cycle : Fin n → Nat) (c : Nat) : List (Fin n) :=
  (List.finRange n).filter fun j => c ≤ cycle j

/-- **Request `j` is granted in cycle `cycle j` and in no other**: before cycle
`c` exactly the requests with `c ≤ cycle j` are pending, in order, and of these
exactly the ones with `cycle j = c` are granted in it. -/
structure GrantedOnce (ports : Input BW LAW DW) (hash_en : Bool)
    (t : ReadBench BW LAW DW) (cycle : Fin t.a.length → Nat) : Prop where
  pending : ∀ c, ((ReadBench.turn ports hash_en)^[c] t).a = (waiting cycle c).map t.a.get
  granted : ∀ c k (hk : k < (waiting cycle c).length),
    ((ReadBench.turn ports hash_en)^[c + 1] t).top.granted k = true
      ↔ cycle (waiting cycle c)[k] = c

theorem exists_grantedOnce {ports : Input BW LAW DW} {h : Bool} (hr : ports.rst_n = true)
    {t : ReadBench BW LAW DW} (hn : t.a.length ≤ 2 ^ BW) :
    ∃ cycle, GrantedOnce ports h t cycle ∧ ∀ j, cycle j < worstBank h t.a := by
  have hnd := List.nodup_finRange t.a.length
  obtain ⟨cycle, hcycle⟩ := @exists_round _ _ _ (bankOf h ∘ t.a.get) _ _ hnd
  have hmap : (List.finRange t.a.length).map t.a.get = t.a := List.map_get_finRange t.a
  have hpending : ∀ c, ((ReadBench.turn ports h)^[c] t).a = (waiting cycle c).map t.a.get := by
    intro c
    rw [turns_pending hr hn, waiting, ← hcycle c, ← rounds_map, hmap]
  refine ⟨cycle, ⟨hpending, fun c k hk => ?_⟩, fun j => ?_⟩
  · have hwait : (waiting cycle c).Nodup := hnd.filter _
    have hlen : ((ReadBench.turn ports h)^[c] t).a.length ≤ 2 ^ BW := by
      rw [hpending, List.length_map]
      exact (List.length_filter_le _ _).trans (by rwa [List.length_finRange])
    have hk' : k < ((ReadBench.turn ports h)^[c] t).a.length := by
      rwa [hpending, List.length_map]
    have hx : (waiting cycle c)[k] ∈ waiting cycle c := List.getElem_mem hk
    have hle : c ≤ cycle (waiting cycle c)[k] := of_decide_eq_true (List.mem_filter.mp hx).2
    -- what is left after the cycle is what waits for the next one
    have hnext : later (bankOf h ∘ t.a.get) [] (waiting cycle c) = waiting cycle (c + 1) := by
      rw [waiting, waiting, ← hcycle, ← hcycle, rounds_succ']
    have hleft : (waiting cycle c)[k] ∈ later (bankOf h ∘ t.a.get) [] (waiting cycle c) ↔ _ :=
      mem_later_iff (bankOf h ∘ t.a.get) hwait hk
    rw [hnext] at hleft
    have hmem : (waiting cycle c)[k] ∈ waiting cycle (c + 1)
        ↔ c + 1 ≤ cycle (waiting cycle c)[k] := by
      simp [waiting]
    rw [Function.iterate_succ_apply']
    refine (granted_iff hr hlen _ hk').trans ?_
    simp only [hpending, List.getElem_map, ← List.map_take, List.map_map]
    rw [hmem] at hleft
    simp only [List.not_mem_nil, false_or] at hleft
    rw [← Function.comp_apply (f := bankOf h), ← hleft]
    omega
  · by_contra hge
    have hnil : rounds (bankOf h) (worstBank h t.a) t.a = [] :=
      (rounds_eq_nil_iff mem_bankNumbers _).mpr (Nat.le_refl (worstBank h t.a))
    rw [← turns_pending hr hn, hpending, List.map_eq_nil_iff] at hnil
    have hj : j ∈ waiting cycle (worstBank h t.a) :=
      List.mem_filter.mpr ⟨List.mem_finRange j, decide_eq_true (Nat.le_of_not_lt hge)⟩
    rw [hnil] at hj
    cases hj

/-- **Arbitration takes exactly the fullest bank's load**: every request is
granted once, `run_reads` ends, and with addresses a pitch apart the cycles
follow from the pitch alone, one for an odd pitch. -/
theorem runReads_worstBank {ports : Input BW LAW DW} (hr : ports.rst_n = true)
    (hash_en : Bool) (top : State BW LAW DW) {a : List (BitVec (LAW + BW))}
    (hn : a.length ≤ 2 ^ BW) (counts : BitVec BW → BitVec 6) :
    (∃ cycle, GrantedOnce ports hash_en ⟨top, a, 0, counts⟩ cycle
        ∧ ∀ j, cycle j < worstBank hash_en a)
      ∧ (∀ fuel, worstBank hash_en a ≤ fuel →
        ∃ t, runReads fuel ports top a hash_en counts = some t
          ∧ t.a = [] ∧ t.cycles = worstBank hash_en a)
      ∧ ∀ base P, hash_en = false → a = pitched BW LAW base P a.length →
        worstBank hash_en a = (a.length * Nat.gcd P (2 ^ BW) + (2 ^ BW - 1)) / 2 ^ BW
          ∧ (P % 2 = 1 → worstBank hash_en a ≤ 1) := by
  have hpending : ∀ c, ((ReadBench.turn ports hash_en)^[c] ⟨top, a, 0, counts⟩).a
      = rounds (bankOf hash_en) c a := turns_pending hr hn
  have hempty : ∀ c, rounds (bankOf hash_en) c a = [] ↔ worstBank hash_en a ≤ c :=
    rounds_eq_nil_iff mem_bankNumbers
  refine ⟨exists_grantedOnce hr hn, fun fuel hfuel => ?_, fun base P hh ha => ?_⟩
  · have hdone := (hpending _).trans ((hempty _).mpr (Nat.le_refl (worstBank hash_en a)))
    refine ⟨_, whilePending_eq hfuel hdone fun d hd hnil => ?_, hdone, ?_⟩
    · have := (hempty d).mp ((hpending d).symm.trans hnil)
      omega
    · rw [turns_cycles, Nat.zero_add]
  · subst hh
    have hlaw := worstBank_pitched BW LAW base P a.length
    rw [← ha] at hlaw
    refine ⟨hlaw, fun hodd => ?_⟩
    have htwo : Nat.Coprime P 2 := by
      rw [Nat.coprime_iff_gcd_eq_one, Nat.gcd_comm, Nat.gcd_rec, hodd, Nat.gcd_one_left]
    have hcop : Nat.gcd P (2 ^ BW) = 1 := htwo.pow_right BW
    rw [hlaw, hcop, Nat.mul_one]
    have hpos := Nat.two_pow_pos BW
    exact Nat.le_of_lt_succ (Nat.div_lt_of_lt_mul (by omega))

/-- The ports of the bench between two scenarios. -/
def benchPorts : Input 5 7 16 :=
  { rst_n := true, hash_en := false, req_addr := fun _ => 0#12, wr_addr := fun _ => 0#12
    wr_data := fun _ => 0#16, wr_valid := fun _ => false }

def resetXbar : State 5 7 16 :=
  { grant := fun _ => false, bank_of_d := fun _ => 0#5
    banks := fun _ => ⟨fun _ => 0#16, 0#16⟩ }

/-- 16 rows of 128 words: all in bank 0. -/
theorem runReads_worstBank_rowMajor :
    ∃ t, runReads 16 benchPorts resetXbar (pitched 5 7 0 128 16) false (fun _ => 0#6) = some t
      ∧ t.a = [] ∧ t.cycles = 16 := by
  obtain ⟨-, hruns, hpitch⟩ := @runReads_worstBank 5 7 16 benchPorts rfl false resetXbar
    (pitched 5 7 0 128 16) (by decide) fun _ => 0#6
  have hworst : worstBank false (pitched 5 7 0 128 16) = 16 := (hpitch 0 128 rfl rfl).1
  rw [hworst] at hruns
  exact hruns 16 (Nat.le_refl 16)

end EclipseNpu.Rtl.BankXbar

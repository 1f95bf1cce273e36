import EclipseNpu.Lib.Clocked
import EclipseNpu.Runtime.CModel

/-!
# Rtl — Dma

The DMA load engine (`rtl/dma/dma.sv`), one definition for each group of
wires and one `step` for a clock edge.

The two burst slots are the same logic, slot B fed with the registers slot A
would leave (`burst` and `State.burstB`). A port group whose valid bit is low
is `none` (`State.wrPort`). The parameters `AW` (word address width) and
`LAST` (`DDR_LATENCY - 1`) are those of the module; `DW` is 16.
-/

namespace EclipseNpu.Rtl

open EclipseNpu.Lib EclipseNpu.Runtime

/-! ## Ports and registers -/

/-- The descriptor ports. -/
structure Desc where
  sramAddr : BitVec 32
  ddrAddr : BitVec 32
  rows : BitVec 32
  cols : BitVec 32
  srcStride : BitVec 32
  deriving DecidableEq, Repr

def Desc.rowBytes (d : Desc) : BitVec 32 := d.cols <<< 1

def Desc.alignedOk (d : Desc) : Bool :=
  d.sramAddr.extractLsb' 0 4 == 0#4 && d.ddrAddr.extractLsb' 0 4 == 0#4

inductive FsmState
  | S_IDLE
  | S_CHECK
  | S_RUN
  | S_DONE
  deriving DecidableEq, Repr

/-- `st_row`, `st_rstart`, `st_blk` and `st_left`. -/
structure Cursor where
  row : BitVec 32
  rstart : BitVec 32
  blk : BitVec 32
  left : BitVec 32
  deriving DecidableEq, Repr

/-- One stage of the write command pipeline. -/
structure PlEntry (AW : Nat) where
  addr : BitVec AW
  lo0 : BitVec 4
  n0 : BitVec 4
  lo1 : BitVec 4
  n1 : BitVec 4
  v0 : Bool
  v1 : Bool
  deriving DecidableEq, Repr

structure State (AW LAST : Nat) where
  state : FsmState
  cur : Cursor
  wptr : BitVec AW
  pl : Fin (LAST + 1) → PlEntry AW

/-- What a clock edge samples. -/
structure Input where
  rst_n : Bool
  start : Bool
  desc : Desc

/-! ## A burst slot -/

/-- `a_lo`: the offset of the row in its first block, 0 in later blocks. -/
def burstLo (c : Cursor) : BitVec 4 :=
  if c.blk = (c.rstart.extractLsb' 4 28 ++ 0#4 : BitVec 32) then
    c.rstart.extractLsb' 0 4
  else 0#4

def burstAvail (c : Cursor) : BitVec 5 := 16#5 - (burstLo c).setWidth 5

/-- `a_take`: the bytes of the burst. -/
def burstTake (c : Cursor) : BitVec 5 :=
  if c.left < (burstAvail c).setWidth 32 then c.left.extractLsb' 0 5
  else burstAvail c

def burstLeftRaw (c : Cursor) : BitVec 32 := c.left - (burstTake c).setWidth 32

/-- The registers after the burst: the next block, or the next row. -/
def burstNext (d : Desc) (c : Cursor) : Cursor :=
  if burstLeftRaw c = 0#32 then
    { row := c.row + 1#32, rstart := c.rstart + d.srcStride
      blk := (c.rstart + d.srcStride) &&& 0xFFFFFFF0#32, left := d.rowBytes }
  else
    { row := c.row, rstart := c.rstart
      blk := c.blk + 16#32, left := burstLeftRaw c }

/-! ## Combinational signals -/

namespace State

variable {AW LAST : Nat}

/-- Slot B works on the registers slot A leaves. -/
def burstB (d : Desc) (s : State AW LAST) : Cursor := burstNext d s.cur

def issueV0 (d : Desc) (s : State AW LAST) : Bool :=
  decide (s.state = .S_RUN) && decide (s.cur.row < d.rows)

def issueV1 (d : Desc) (s : State AW LAST) : Bool :=
  s.issueV0 d && decide ((s.burstB d).row < d.rows)

/-- `ddr_ren`. -/
def ddrRen (d : Desc) (s : State AW LAST) (slot : Fin 2) : Bool :=
  if slot = 0 then s.issueV0 d else s.issueV1 d

/-- `ddr_raddr`. -/
def ddrRaddr (d : Desc) (s : State AW LAST) (slot : Fin 2) : BitVec 32 :=
  if slot = 0 then s.cur.blk else (s.burstB d).blk

/-- The words of slot B, none when it does not issue. -/
def n1 (d : Desc) (s : State AW LAST) : BitVec 4 :=
  if s.issueV1 d then (burstTake (s.burstB d)).extractLsb' 1 4 else 0#4

/-- What enters the write command pipeline. -/
def entry (d : Desc) (s : State AW LAST) : PlEntry AW :=
  { addr := s.wptr
    lo0 := ((burstLo s.cur).extractLsb' 1 3).setWidth 4
    n0 := (burstTake s.cur).extractLsb' 1 4
    lo1 := ((burstLo (s.burstB d)).extractLsb' 1 3).setWidth 4
    n1 := s.n1 d
    v0 := s.issueV0 d
    v1 := s.issueV1 d }

def plEmpty (s : State AW LAST) : Bool :=
  decide (∀ i, (s.pl i).v0 = false ∧ (s.pl i).v1 = false)

def busy (s : State AW LAST) : Bool :=
  decide (s.state = .S_CHECK) || decide (s.state = .S_RUN)

def done (s : State AW LAST) : Bool := decide (s.state = .S_DONE)

/-! ## SRAM write side -/

/-- Lane `w` of a slot: the word at `base` plus its number in the burst. -/
def writeLane (fire : Bool) (lo n : BitVec 4) (base : BitVec AW)
    (rdata : BitVec 128) (w : Nat) : Option (BitVec AW × BitVec 16) :=
  if fire && decide (lo.setWidth 5 ≤ BitVec.ofNat 5 w)
      && decide (BitVec.ofNat 5 w < lo.setWidth 5 + n.setWidth 5) then
    some (base + (BitVec.ofNat 5 w - lo.setWidth 5).setWidth AW,
      rdata.extractLsb' (16 * w) 16)
  else none

/-- Write port `k`: lanes of slot A, then of slot B. -/
def wrPort (s : State AW LAST) (rdata : Fin 2 → BitVec 128)
    (rvalid : Fin 2 → Bool) (k : Nat) : Option (BitVec AW × BitVec 16) :=
  let e := s.pl (Fin.last LAST)
  if k < 8 then writeLane (e.v0 && rvalid 0) e.lo0 e.n0 e.addr (rdata 0) k
  else if k < 16 then
    writeLane (e.v1 && rvalid 1) e.lo1 e.n1 (e.addr + e.n0.setWidth AW) (rdata 1)
      (k - 8)
  else none

/-! ## Clock edge -/

def nextFsm (i : Input) (s : State AW LAST) : FsmState :=
  match s.state with
  | .S_IDLE => if i.start then .S_CHECK else .S_IDLE
  | .S_CHECK => if i.desc.alignedOk then .S_RUN else .S_IDLE
  | .S_RUN => if !s.issueV0 i.desc && s.plEmpty then .S_DONE else .S_RUN
  | .S_DONE => .S_IDLE

/-- The registers a descriptor starts with. -/
def firstCursor (d : Desc) : Cursor :=
  { row := 0#32, rstart := d.ddrAddr, blk := d.ddrAddr &&& 0xFFFFFFF0#32
    left := d.rowBytes }

def nextCursor (d : Desc) (s : State AW LAST) : Cursor :=
  if s.state = .S_CHECK ∧ d.alignedOk then firstCursor d
  else if s.issueV0 d then
    (if s.issueV1 d then burstNext d (s.burstB d) else s.burstB d)
  else s.cur

def nextWptr (d : Desc) (s : State AW LAST) : BitVec AW :=
  if s.state = .S_CHECK ∧ d.alignedOk then d.sramAddr.extractLsb' 1 AW
  else if s.issueV0 d then
    s.wptr + ((burstTake s.cur).extractLsb' 1 4).setWidth AW + (s.n1 d).setWidth AW
  else s.wptr

/-- Reset clears the state, the registers and the valid bits. -/
def reset (s : State AW LAST) : State AW LAST :=
  { state := .S_IDLE, cur := ⟨0#32, 0#32, 0#32, 0#32⟩, wptr := BitVec.ofNat AW 0
    pl := fun i => { s.pl i with v0 := false, v1 := false } }

def step (i : Input) (s : State AW LAST) : State AW LAST :=
  if i.rst_n then
    { state := s.nextFsm i, cur := s.nextCursor i.desc, wptr := s.nextWptr i.desc
      pl := shiftIn (s.entry i.desc) s.pl }
  else s.reset

end State

/-! ## Reachable states -/

/-- The states the engine can be in after a reset. -/
inductive Reachable {AW LAST : Nat} : State AW LAST → Prop
  | reset (s : State AW LAST) : Reachable s.reset
  | step (i : Input) {s : State AW LAST} (h : Reachable s) : Reachable (s.step i)

theorem plEmpty_iff {AW LAST : Nat} {s : State AW LAST} :
    s.plEmpty = true ↔ ∀ i, (s.pl i).v0 = false ∧ (s.pl i).v1 = false :=
  decide_eq_true_iff

theorem issueV0_of_not_run {AW LAST : Nat} {d : Desc} {s : State AW LAST}
    (h : s.state ≠ .S_RUN) : s.issueV0 d = false := by
  rw [State.issueV0, decide_eq_false h, Bool.false_and]

theorem issueV1_of_issueV0 {AW LAST : Nat} {d : Desc} {s : State AW LAST}
    (h : s.issueV0 d = false) : s.issueV1 d = false := by
  rw [State.issueV1, h, Bool.false_and]

theorem plEmpty_shiftIn {AW LAST : Nat} {d : Desc} {s t : State AW LAST}
    (hpl : t.pl = shiftIn (s.entry d) s.pl) (h0 : s.issueV0 d = false)
    (he : s.plEmpty = true) : t.plEmpty = true := by
  rw [plEmpty_iff] at he ⊢
  intro i
  rw [hpl, shiftIn]
  split
  · exact ⟨h0, issueV1_of_issueV0 h0⟩
  · exact he _

/-- **Outside a transfer the pipeline is empty.** -/
theorem Reachable.plEmpty {AW LAST : Nat} {s : State AW LAST} (h : Reachable s)
    (hs : s.state ≠ .S_RUN) : s.plEmpty = true := by
  induction h with
  | reset s => exact plEmpty_iff.mpr fun _ => ⟨rfl, rfl⟩
  | @step i s _ ih =>
      unfold State.step at hs ⊢
      split at hs
      case isFalse hr =>
        rw [if_neg hr]
        exact plEmpty_iff.mpr fun _ => ⟨rfl, rfl⟩
      case isTrue hr =>
        rw [if_pos hr]
        by_cases hrun : s.state = .S_RUN
        · -- the only way out of S_RUN is an empty pipeline
          have hexit : (!s.issueV0 i.desc && s.plEmpty) = true := by
            by_contra hc
            refine hs ?_
            show s.nextFsm i = .S_RUN
            rw [State.nextFsm, hrun]
            exact if_neg hc
          rw [Bool.and_eq_true, Bool.not_eq_true'] at hexit
          exact plEmpty_shiftIn rfl hexit.1 hexit.2
        · exact plEmpty_shiftIn rfl (issueV0_of_not_run hrun) (ih hrun)

end EclipseNpu.Rtl

import EclipseNpu.Lib.Fifo

/-!
# Rtl — PipeSlice

The two-entry pipeline slice (`rtl/pip/pipe_slice.sv`): registers, the
combinational outputs of a cycle, and the clock edge.

The registers are a queue (`State.contents`): `r0` is its front, `r1` is
only used while `cnt` is 2. One edge moves the queue by what the two
handshakes of the cycle transfer (`step_cases`).
-/

namespace EclipseNpu.Rtl.PipeSlice

open EclipseNpu.Lib

/-! ## The module -/

structure State where
  cnt : BitVec 2
  r0 : BitVec 8
  r1 : BitVec 8
  deriving DecidableEq, Repr

structure Input where
  rst_n : Bool
  s_valid : Bool
  s_data : BitVec 8
  m_ready : Bool
  deriving DecidableEq, Repr

/-- What the module drives in a cycle. -/
structure Outputs where
  s_ready : Bool
  m_valid : Bool
  m_data : BitVec 8
  push : Bool
  pop : Bool
  deriving DecidableEq, Repr

def outputs (i : Input) (s : State) : Outputs :=
  let s_ready := decide (s.cnt < 2#2)
  let m_valid := decide (0#2 < s.cnt)
  { s_ready := s_ready, m_valid := m_valid, m_data := s.r0
    push := i.s_valid && s_ready, pop := m_valid && i.m_ready }

def bit (b : Bool) : BitVec 2 := if b then 1#2 else 0#2

/-- The state a reset edge leaves. -/
def resetState : State := ⟨0#2, 0#8, 0#8⟩

/-- `always_ff @(posedge clk)`. -/
def step (i : Input) (s : State) : State :=
  let push := (outputs i s).push
  let pop := (outputs i s).pop
  if i.rst_n then
    { cnt := s.cnt + bit push - bit pop
      r0 := if pop && decide (s.cnt = 2#2) then s.r1
        else if push && (decide (s.cnt = 0#2) || pop) then i.s_data else s.r0
      r1 := if decide (s.cnt = 1#2) && push && !pop then i.s_data else s.r1 }
  else resetState

/-- The value that enters, and the value that leaves, in a cycle. -/
def accepted (i : Input) (s : State) : Option (BitVec 8) :=
  if (outputs i s).push then some i.s_data else none

def delivered (i : Input) (s : State) : Option (BitVec 8) :=
  if (outputs i s).pop then some (outputs i s).m_data else none

/-! ## Runs -/

/-- The states of a run that starts from a reset. -/
def trace (input : Nat → Input) : Nat → State
  | 0 => resetState
  | n + 1 => step (input n) (trace input n)

/-- The states the module can be in once it has been reset. -/
inductive Reachable : State → Prop
  | reset : Reachable resetState
  | step (i : Input) {s : State} (h : Reachable s) : Reachable (step i s)

/-- The states of a run from `s`. -/
def runFrom (s : State) (input : Nat → Input) : Nat → State
  | 0 => s
  | n + 1 => step (input n) (runFrom s input n)

/-! ## The queue in the registers -/

/-- At most two values are held. -/
def WellFormed (s : State) : Prop := s.cnt = 0#2 ∨ s.cnt = 1#2 ∨ s.cnt = 2#2

def State.contents (s : State) : List (BitVec 8) :=
  if s.cnt = 0#2 then [] else if s.cnt = 1#2 then [s.r0] else [s.r0, s.r1]

theorem WellFormed.length {s : State} (h : WellFormed s) :
    s.contents.length = s.cnt.toNat := by
  unfold State.contents
  rcases h with h | h | h <;> rw [h] <;> rfl

/-- What an edge does, by occupancy and by the two handshakes. -/
theorem step_cases {i : Input} {s : State} (hr : i.rst_n = true)
    (h : WellFormed s) :
    WellFormed (step i s)
      ∧ FifoStep s.contents (accepted i s) (delivered i s) (step i s).contents := by
  obtain ⟨rst, sv, sd, mr⟩ := i
  obtain ⟨cnt, r0, r1⟩ := s
  obtain rfl : rst = true := hr
  rcases h with h | h | h <;> obtain rfl : cnt = _ := h <;> cases sv <;> cases mr
  all_goals simp [WellFormed, FifoStep, State.contents, accepted, delivered, step,
    outputs, bit]

theorem Reachable.wellFormed {s : State} (h : Reachable s) : WellFormed s := by
  induction h with
  | reset => exact .inl rfl
  | @step i s _ ih =>
      by_cases hr : i.rst_n = true
      · exact (step_cases hr ih).1
      · rw [PipeSlice.step, if_neg hr]
        exact .inl rfl

/-- **Stability**: a value that is offered and not taken stays offered. -/
theorem step_stable {i : Input} (j : Input) {s : State} (hr : i.rst_n = true)
    (h : WellFormed s) (hv : (outputs i s).m_valid = true) (hm : i.m_ready = false) :
    (outputs j (step i s)).m_valid = true
      ∧ (outputs j (step i s)).m_data = (outputs i s).m_data := by
  obtain ⟨rst, sv, sd, mr⟩ := i
  obtain ⟨cnt, r0, r1⟩ := s
  obtain rfl : rst = true := hr
  obtain rfl : mr = false := hm
  rcases h with h | h | h <;> obtain rfl : cnt = _ := h <;> cases sv
  · cases hv
  · cases hv
  all_goals simp [step, outputs, bit]

/-! ## Full throughput -/

/-- One open cycle leaves exactly one value, and from there both handshakes
fire. -/
theorem step_open {i : Input} {s : State} (hr : i.rst_n = true) (h : WellFormed s)
    (hs : i.s_valid = true) (hm : i.m_ready = true) : (step i s).cnt = 1#2 := by
  obtain ⟨rst, sv, sd, mr⟩ := i
  obtain ⟨cnt, r0, r1⟩ := s
  obtain rfl : rst = true := hr
  obtain rfl : sv = true := hs
  obtain rfl : mr = true := hm
  rcases h with h | h | h <;> obtain rfl : cnt = _ := h
  all_goals simp [step, outputs, bit]

theorem handshakes_of_one {i : Input} {s : State} (h : s.cnt = 1#2)
    (hs : i.s_valid = true) (hm : i.m_ready = true) :
    (outputs i s).push = true ∧ (outputs i s).pop = true := by
  simp only [outputs, h, hs, hm]
  decide

theorem runFrom_wellFormed {s : State} {input : Nat → Input} {n : Nat}
    (hr : ∀ c < n, (input c).rst_n = true) (h : WellFormed s) :
    WellFormed (runFrom s input n) := by
  induction n with
  | zero => exact h
  | succ n ih =>
      exact (step_cases (hr n (Nat.lt_succ_self n))
        (ih fun c hc => hr c (Nat.lt_succ_of_lt hc))).1

theorem trace_wellFormed {input : Nat → Input}
    (hr : ∀ c, (input c).rst_n = true) (n : Nat) : WellFormed (trace input n) := by
  induction n with
  | zero => exact .inl rfl
  | succ n ih => exact (step_cases (hr n) ih).1

/-- **The slice is a two-entry FIFO.** -/
theorem pipeSlice_fifo (input : Nat → Input) (hr : ∀ c, (input c).rst_n = true) :
    (∀ n, (trace input n).cnt = 0#2 ∨ (trace input n).cnt = 1#2
        ∨ (trace input n).cnt = 2#2)
      ∧ (∀ n, transfers (fun c => delivered (input c) (trace input c)) n
          <+: transfers (fun c => accepted (input c) (trace input c)) n)
      ∧ (∀ n, (transfers (fun c => accepted (input c) (trace input c)) n).length
          = (transfers (fun c => delivered (input c) (trace input c)) n).length
            + (trace input n).cnt.toNat)
      ∧ (∀ n, (outputs (input n) (trace input n)).m_valid = true →
          (input n).m_ready = false →
          (outputs (input (n + 1)) (trace input (n + 1))).m_valid = true
            ∧ (outputs (input (n + 1)) (trace input (n + 1))).m_data
              = (outputs (input n) (trace input n)).m_data)
      ∧ (∀ s i j, (outputs i s).s_ready = (outputs j s).s_ready
          ∧ (outputs i s).m_valid = (outputs j s).m_valid)
      ∧ ∀ s, Reachable s → ∀ (input : Nat → Input) (n : Nat),
          (∀ c ≤ n + 1, (input c).rst_n = true ∧ (input c).s_valid = true
            ∧ (input c).m_ready = true) →
          (outputs (input (n + 1)) (runFrom s input (n + 1))).push = true
            ∧ (outputs (input (n + 1)) (runFrom s input (n + 1))).pop = true := by
  have hwf := trace_wellFormed hr
  have hstep : ∀ n, FifoStep (trace input n).contents
      (accepted (input n) (trace input n)) (delivered (input n) (trace input n))
      (trace input (n + 1)).contents :=
    fun n => (step_cases (hr n) (hwf n)).2
  refine ⟨hwf, transfers_prefix rfl hstep, fun n => ?_,
    fun n => step_stable _ (hr n) (hwf n), fun s i j => ⟨rfl, rfl⟩,
    fun s hs input n hopen => ?_⟩
  · rw [transfers_length (q := fun n => (trace input n).contents) rfl hstep,
      (hwf n).length]
  · have hprev := hopen n (Nat.le_succ n)
    have hlast := hopen (n + 1) (Nat.le_refl _)
    have hwf' := runFrom_wellFormed (n := n)
      (fun c hc => (hopen c (by omega)).1) hs.wellFormed
    exact handshakes_of_one
      (step_open hprev.1 hwf' hprev.2.1 hprev.2.2) hlast.2.1 hlast.2.2

/-- The bench: always valid, ready one cycle in four. -/
def benchInput (n : Nat) : Input :=
  { rst_n := true, s_valid := true, s_data := BitVec.ofNat 8 n
    m_ready := decide (n % 4 = 1) }

theorem pipeSlice_fifo_bench :
    transfers (fun c => delivered (benchInput c) (trace benchInput c)) 40
        <+: transfers (fun c => accepted (benchInput c) (trace benchInput c)) 40
      ∧ (outputs (benchInput 8) (trace benchInput 8)).m_data
        = (outputs (benchInput 7) (trace benchInput 7)).m_data := by
  obtain ⟨-, hpre, -, hstable, -⟩ := pipeSlice_fifo benchInput fun _ => rfl
  exact ⟨hpre 40, (hstable 7 (by decide +kernel) (by decide)).2⟩

end EclipseNpu.Rtl.PipeSlice

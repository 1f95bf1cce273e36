import Mathlib.Data.List.Infix

/-!
# Lib — Fifo

A queue seen from its two ends. Per cycle each end transfers at most one
value; if the contents move by one such step in every cycle, what has left
is always a prefix of what has entered, and the contents are the rest.
-/

namespace EclipseNpu.Lib

variable {α : Type*}

/-- The values transferred in the first `n` cycles. -/
def transfers (port : Nat → Option α) : Nat → List α
  | 0 => []
  | n + 1 => transfers port n ++ (port n).toList

/-- One cycle of a queue: `put` enters behind the contents, `get` leaves
from the front. -/
def FifoStep (q : List α) (put get : Option α) (q' : List α) : Prop :=
  q ++ put.toList = get.toList ++ q'

section Run

variable {q : Nat → List α} {put get : Nat → Option α}

/-- **Conservation**: entered = left, then what is still inside. -/
theorem transfers_conserved (h0 : q 0 = [])
    (hstep : ∀ n, FifoStep (q n) (put n) (get n) (q (n + 1))) (n : Nat) :
    transfers put n = transfers get n ++ q n := by
  induction n with
  | zero => rw [h0]; rfl
  | succ n ih =>
      rw [transfers, transfers, ih, List.append_assoc, hstep n, List.append_assoc]

theorem transfers_prefix (h0 : q 0 = [])
    (hstep : ∀ n, FifoStep (q n) (put n) (get n) (q (n + 1))) (n : Nat) :
    transfers get n <+: transfers put n :=
  ⟨q n, (transfers_conserved h0 hstep n).symm⟩

theorem transfers_length (h0 : q 0 = [])
    (hstep : ∀ n, FifoStep (q n) (put n) (get n) (q (n + 1))) (n : Nat) :
    (transfers put n).length = (transfers get n).length + (q n).length := by
  rw [transfers_conserved h0 hstep, List.length_append]

end Run

end EclipseNpu.Lib

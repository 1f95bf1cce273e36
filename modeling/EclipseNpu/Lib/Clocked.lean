import Mathlib.Data.List.Perm.Basic
import Mathlib.Logic.Function.Basic

/-!
# Lib — Clocked

Two pieces of clocked hardware. A shift register delays what is shifted in
by its length (`shiftTrace_delayed`). A bank of write ports that fire in one
cycle at different addresses gives one memory in whatever order the ports
are served (`applyWrites_perm`).
-/

namespace EclipseNpu.Lib

/-! ## Shift registers -/

section Shift

variable {α : Type*} {n : Nat}

/-- One clock edge of a shift register of `n + 1` stages. -/
def shiftIn (x : α) (pl : Fin (n + 1) → α) : Fin (n + 1) → α := fun i =>
  if i.val = 0 then x else pl ⟨i.val - 1, by omega⟩

theorem shiftIn_zero (x : α) (pl : Fin (n + 1) → α) : shiftIn x pl 0 = x := rfl

theorem shiftIn_succ (x : α) (pl : Fin (n + 1) → α) {i : Nat} (hi : i + 1 < n + 1) :
    shiftIn x pl ⟨i + 1, hi⟩ = pl ⟨i, by omega⟩ := by
  rw [shiftIn, if_neg (by simp)]
  rfl

variable (pl : Nat → Fin (n + 1) → α) {input : Nat → α}

/-- **Stage `i` is `i + 1` cycles late.** -/
theorem shiftTrace_delayed (h : ∀ c, pl (c + 1) = shiftIn (input c) (pl c))
    (c : Nat) {i : Nat} (hi : i < n + 1) : pl (c + 1 + i) ⟨i, hi⟩ = input c := by
  induction i with
  | zero => rw [Nat.add_zero, h c]; exact shiftIn_zero _ _
  | succ i ih => rw [← Nat.add_assoc, h, shiftIn_succ, ih]

/-- What the register held at first leaves it unchanged. -/
theorem shiftTrace_initial (h : ∀ c, pl (c + 1) = shiftIn (input c) (pl c))
    {c i : Nat} (hi : c + i < n + 1) :
    pl c ⟨c + i, hi⟩ = pl 0 ⟨i, by omega⟩ := by
  induction c with
  | zero => simp
  | succ c ih =>
      have hci : c + 1 + i = (c + i) + 1 := by omega
      have hpl : pl (c + 1) ⟨c + 1 + i, hi⟩ = pl (c + 1) ⟨c + i + 1, by omega⟩ := by
        congr 1
        exact Fin.ext hci
      rw [hpl, h c, shiftIn_succ _ _ (by omega), ih (by omega)]

end Shift

/-! ## Write ports -/

section Writes

variable {A D : Type*} [DecidableEq A]

/-- Serve the writes one after another. -/
def applyWrites (ws : List (A × D)) (m : A → D) : A → D :=
  ws.foldl (fun m w => Function.update m w.1 w.2) m

@[simp] theorem applyWrites_nil (m : A → D) : applyWrites [] m = m := rfl

theorem applyWrites_append (ws vs : List (A × D)) (m : A → D) :
    applyWrites (ws ++ vs) m = applyWrites vs (applyWrites ws m) :=
  List.foldl_append

/-- An address no write names keeps its contents. -/
theorem applyWrites_notMem {ws : List (A × D)} {m : A → D} {a : A}
    (h : ∀ w ∈ ws, w.1 ≠ a) : applyWrites ws m a = m a := by
  induction ws generalizing m with
  | nil => rfl
  | cons w ws ih =>
      show applyWrites ws (Function.update m w.1 w.2) a = m a
      rw [ih fun v hv => h v (by simp [hv]),
        Function.update_of_ne (h w (by simp)).symm]

/-- An address one write names holds what that write brought. -/
theorem applyWrites_mem {ws : List (A × D)} {m : A → D} {w : A × D}
    (hd : ws.Pairwise fun w v => w.1 ≠ v.1) (h : w ∈ ws) :
    applyWrites ws m w.1 = w.2 := by
  induction ws generalizing m with
  | nil => cases h
  | cons v ws ih =>
      obtain ⟨hv, hd⟩ := List.pairwise_cons.mp hd
      show applyWrites ws (Function.update m v.1 v.2) w.1 = w.2
      rcases List.mem_cons.mp h with rfl | h
      · rw [applyWrites_notMem fun u hu => (hv u hu).symm, Function.update_self]
      · exact ih hd h

/-- **Ports at different addresses may be served in any order.** -/
theorem applyWrites_perm {ws vs : List (A × D)} (hp : ws.Perm vs)
    (hd : ws.Pairwise fun w v => w.1 ≠ v.1) (m : A → D) :
    applyWrites ws m = applyWrites vs m := by
  refine hp.foldl_eq' (fun w hw v hv m => ?_) m
  by_cases h : w = v
  · rw [h]
  · have hne : w.1 ≠ v.1 := by
      have hpair := List.pairwise_iff_getElem.mp hd
      obtain ⟨i, hi, rfl⟩ := List.getElem_of_mem hw
      obtain ⟨j, hj, rfl⟩ := List.getElem_of_mem hv
      rcases Nat.lt_trichotomy i j with hij | rfl | hij
      · exact hpair i j hi hj hij
      · exact absurd rfl h
      · exact (hpair j i hj hi hij).symm
    exact Function.update_comm hne w.2 v.2 m

end Writes

end EclipseNpu.Lib

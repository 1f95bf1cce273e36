import Mathlib.Tactic.Common

/-!
# Lib — Bump

Bump allocation on unbounded integers: every request, a size and an
alignment, gets the next multiple of its alignment after everything placed
so far. The places are in order and never overlap (`bumpPlaces_ordered`);
whether they stay below a limit is a condition on the requests (`BumpFits`).
-/

namespace EclipseNpu.Lib

/-- The least multiple of `a` from `p` on. -/
def alignUp (p a : Nat) : Nat := (p + a - 1) / a * a

theorem dvd_alignUp (p a : Nat) : a ∣ alignUp p a := Nat.dvd_mul_left _ _

theorem le_alignUp {p a : Nat} (ha : a ≠ 0) : p ≤ alignUp p a := by
  have hdiv := Nat.lt_div_mul_add (a := p + a - 1) (Nat.pos_of_ne_zero ha)
  unfold alignUp
  omega

theorem alignUp_lt {p a : Nat} (ha : a ≠ 0) : alignUp p a < p + a := by
  have hdiv := Nat.div_mul_le_self (p + a - 1) a
  unfold alignUp
  omega

/-- An alignment of at least `p` is itself the place. -/
theorem alignUp_of_le {p a : Nat} (hp : p ≠ 0) (h : p ≤ a) : alignUp p a = a := by
  have hdiv : (p + a - 1) / a = 1 := by
    rw [show p + a - 1 = a + (p - 1) by omega, Nat.add_div_left _ (by omega),
      Nat.div_eq_of_lt (by omega)]
  rw [alignUp, hdiv, Nat.one_mul]

/-- A multiple of the alignment is itself the place. -/
theorem alignUp_of_dvd {p a : Nat} (hp : p ≠ 0) (h : a ∣ p) : alignUp p a = p := by
  obtain ⟨k, rfl⟩ := h
  have ha : a ≠ 0 := fun hz => hp (by rw [hz, Nat.zero_mul])
  rw [alignUp, Nat.add_sub_assoc (by omega), Nat.mul_add_div (by omega),
    Nat.div_eq_of_lt (by omega), Nat.add_zero, Nat.mul_comm]

/-- The places of a list of requests `(size, alignment)`, each with its size. -/
def bumpPlaces : Nat → List (Nat × Nat) → List (Nat × Nat)
  | _, [] => []
  | p, (size, a) :: reqs =>
      (alignUp p a, size) :: bumpPlaces (alignUp p a + size) reqs

/-- All requests have an alignment and end at or below `limit`. -/
def BumpFits (limit : Nat) : Nat → List (Nat × Nat) → Prop
  | _, [] => True
  | p, (size, a) :: reqs =>
      a ≠ 0 ∧ alignUp p a + size ≤ limit ∧ BumpFits limit (alignUp p a + size) reqs

instance BumpFits.decidable (limit : Nat) :
    (p : Nat) → (reqs : List (Nat × Nat)) → Decidable (BumpFits limit p reqs)
  | _, [] => isTrue trivial
  | p, (size, a) :: reqs =>
      have := BumpFits.decidable limit (alignUp p a + size) reqs
      inferInstanceAs (Decidable (a ≠ 0 ∧ alignUp p a + size ≤ limit
        ∧ BumpFits limit (alignUp p a + size) reqs))

section Fits

variable {limit : Nat} {reqs : List (Nat × Nat)}

theorem BumpFits.inside {p : Nat} (h : BumpFits limit p reqs) :
    ∀ q ∈ bumpPlaces p reqs, p ≤ q.1 ∧ q.1 + q.2 ≤ limit := by
  induction reqs generalizing p with
  | nil => intro q hq; cases hq
  | cons r reqs ih =>
      obtain ⟨ha, hle, hrest⟩ := h
      have hp := le_alignUp (p := p) ha
      intro q hq
      rcases List.mem_cons.mp hq with rfl | hq
      · exact ⟨hp, hle⟩
      · obtain ⟨h1, h2⟩ := ih hrest q hq
        exact ⟨by omega, h2⟩

/-- **The places are in order**, each after the end of those before it. -/
theorem bumpPlaces_ordered {p : Nat} (h : BumpFits limit p reqs) :
    (bumpPlaces p reqs).Pairwise fun q r => q.1 + q.2 ≤ r.1 := by
  induction reqs generalizing p with
  | nil => exact List.Pairwise.nil
  | cons r reqs ih =>
      obtain ⟨-, -, hrest⟩ := h
      exact List.pairwise_cons.mpr ⟨fun q hq => (hrest.inside q hq).1, ih hrest⟩

end Fits

end EclipseNpu.Lib

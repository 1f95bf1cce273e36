import EclipseNpu.Lib.Loop

/-!
# Lib — StridedCopy

Tiles copied row by row between two memories that live in one state: cell `x`
of the destination is `D x`, of the source `S x`. When the destination rows do
not run into each other, every cell of the tile is the cell it was copied from,
and no other changes (`forLoop_copiedTile`); a copy there and a copy back
compose to a copy inside one memory (`CopiedTile.roundTrip`).
-/

namespace EclipseNpu.Lib

universe u

variable {L : Type} {V : Type u} {D S : Nat → L} {s t t' : L → V}

/-- `w` cells copied. -/
structure CopiedRow (D S : Nat → L) (s t : L → V) (dst src w : Nat) : Prop where
  copied : ∀ j < w, t (D (dst + j)) = s (S (src + j))
  frame : ∀ l, (∀ j < w, l ≠ D (dst + j)) → t l = s l

/-- `rows` rows of `w` cells copied, `q` apart from each other in the
destination, `p` in the source. -/
structure CopiedTile (D S : Nat → L) (s t : L → V) (dst q src p rows w : Nat) : Prop where
  copied : ∀ i < rows, ∀ j < w, t (D (dst + i * q + j)) = s (S (src + i * p + j))
  frame : ∀ l, (∀ i < rows, ∀ j < w, l ≠ D (dst + i * q + j)) → t l = s l

variable {dst q src p rows w : Nat}

theorem copiedTile_zero : CopiedTile D S s s dst q src p 0 w :=
  ⟨fun _ hi => absurd hi (Nat.not_lt_zero _), fun _ _ => rfl⟩

/-- A row ends before the next ones start. -/
theorem row_le_row {i k : Nat} (hq : w ≤ q) (h : i < k) : i * q + w ≤ k * q := by
  have hmul := Nat.mul_le_mul_right q (Nat.succ_le_of_lt h)
  rw [Nat.succ_mul] at hmul
  omega

/-- One more row. -/
theorem CopiedTile.next (h : CopiedTile D S s t dst q src p rows w)
    (hrow : CopiedRow D S t t' (dst + rows * q) (src + rows * p) w)
    (hD : Function.Injective D) (hDS : ∀ x y, S x ≠ D y) (hq : w ≤ q) :
    CopiedTile D S s t' dst q src p (rows + 1) w := by
  constructor
  · intro i hi j hj
    rcases Nat.lt_succ_iff_lt_or_eq.mp hi with hlt | rfl
    · rw [hrow.frame, h.copied i hlt j hj]
      intro k hk heq
      have haddr := hD heq
      have := row_le_row hq hlt
      omega
    · rw [hrow.copied j hj]
      exact h.frame _ fun k _ m _ => hDS _ _
  · intro l hl
    rw [hrow.frame l (hl rows (Nat.lt_succ_self rows))]
    exact h.frame l fun i hi => hl i (Nat.lt_succ_of_lt hi)

/-- **A loop over the rows copies the tile.** -/
theorem forLoop_copiedTile {ε : Type*} {f : Nat → (L → V) → Except ε (L → V)}
    (hD : Function.Injective D) (hDS : ∀ x y, S x ≠ D y) (hq : w ≤ q)
    (hf : ∀ i < rows, ∀ t, ∃ t', f i t = .ok t'
      ∧ CopiedRow D S t t' (dst + i * q) (src + i * p) w) :
    ∃ s', forLoop rows f s = .ok s' ∧ CopiedTile D S s s' dst q src p rows w := by
  refine forLoop_spec (fun i t => CopiedTile D S s t dst q src p i w) copiedTile_zero ?_
  intro i hi t htile
  obtain ⟨t', hok, hrow⟩ := hf i hi t
  exact ⟨t', hok, htile.next hrow hD hDS hq⟩

/-- **There and back again**: a tile copied to `D` and from there to another
place in `S`. -/
theorem CopiedTile.roundTrip {mid m back q' : Nat} {u : L → V}
    (hout : CopiedTile D S s t mid m src p rows w)
    (hback : CopiedTile S D t u back q' mid m rows w) :
    ∀ i < rows, ∀ j < w, u (S (back + i * q' + j)) = s (S (src + i * p + j)) := by
  intro i hi j hj
  rw [hback.copied i hi j hj, hout.copied i hi j hj]

end EclipseNpu.Lib

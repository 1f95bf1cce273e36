import Mathlib.Order.Lattice

/-!
# Lib — Reduction

Reducing a sequence with a binary operation, from left to right (`foldRow`)
or along a tree (`ReductionTree.fold`). For an associative operation every tree agrees
with the sequence of its leaves (`ReductionTree.fold_eq_foldRow`).

`leftmost` keeps the first of the largest elements; it is associative, and
`foldRow_leftmost` says which element a row ends with.
-/

namespace EclipseNpu.Lib

/-! ## Left to right -/

section Row

variable {α β : Type*}

/-- The fold of `f 0, …, f n`, from the left. -/
def foldRow (op : α → α → α) (f : Nat → α) : Nat → α
  | 0 => f 0
  | n + 1 => op (foldRow op f n) (f (n + 1))

@[simp] theorem foldRow_zero (op : α → α → α) (f : Nat → α) : foldRow op f 0 = f 0 := rfl

theorem foldRow_succ (op : α → α → α) (f : Nat → α) (n : Nat) :
    foldRow op f (n + 1) = op (foldRow op f n) (f (n + 1)) := rfl

/-- An abstraction that commutes with the operation commutes with the fold. -/
theorem foldRow_map {op : α → α → α} {op' : β → β → β} {g : α → β}
    (h : ∀ a b, g (op a b) = op' (g a) (g b)) (f : Nat → α) (n : Nat) :
    g (foldRow op f n) = foldRow op' (fun j => g (f j)) n := by
  induction n with
  | zero => rfl
  | succ n ih => rw [foldRow_succ, h, ih, foldRow_succ]

theorem foldRow_congr {op : α → α → α} {f g : Nat → α} {n : Nat}
    (h : ∀ j ≤ n, f j = g j) : foldRow op f n = foldRow op g n := by
  induction n with
  | zero => exact h 0 (Nat.le_refl 0)
  | succ n ih =>
      rw [foldRow_succ, foldRow_succ, ih fun j hj => h j (by omega),
        h (n + 1) (Nat.le_refl _)]

theorem foldRow_eq_foldl (op : α → α → α) (f : Nat → α) (n : Nat) :
    foldRow op f n = ((List.range n).map fun j => f (j + 1)).foldl op (f 0) := by
  induction n with
  | zero => rfl
  | succ n ih =>
      rw [List.range_succ, List.map_append, List.foldl_append, ← ih]
      rfl

end Row

/-! ## Along a tree -/

/-- A binary tree with its values at the leaves. -/
inductive ReductionTree (α : Type*)
  | leaf (a : α)
  | node (left right : ReductionTree α)

namespace ReductionTree

variable {α : Type*}

/-- The leaves from left to right. -/
def leaves : ReductionTree α → List α
  | leaf a => [a]
  | node l r => l.leaves ++ r.leaves

def fold (op : α → α → α) : ReductionTree α → α
  | leaf a => a
  | node l r => op (l.fold op) (r.fold op)

theorem leaves_cons (t : ReductionTree α) : ∃ a as, t.leaves = a :: as := by
  induction t with
  | leaf a => exact ⟨a, [], rfl⟩
  | node l r ihl ihr =>
      obtain ⟨a, as, h⟩ := ihl
      exact ⟨a, as ++ r.leaves, by rw [leaves, h, List.cons_append]⟩

theorem fold_eq_foldl {op : α → α → α} [Std.Associative op] {t : ReductionTree α} {a : α}
    {as : List α} (h : t.leaves = a :: as) : t.fold op = as.foldl op a := by
  induction t generalizing a as with
  | leaf b =>
      cases h
      rfl
  | node l r ihl ihr =>
      obtain ⟨b, bs, hl⟩ := l.leaves_cons
      obtain ⟨c, cs, hr⟩ := r.leaves_cons
      rw [leaves, hl, hr, List.cons_append] at h
      obtain ⟨rfl, rfl⟩ := List.cons.inj h
      rw [fold, ihl hl, ihr hr, List.foldl_append, List.foldl_cons, List.foldl_assoc]

/-- **Every tree over a row reduces to the left fold of the row.** -/
theorem fold_eq_foldRow {op : α → α → α} [Std.Associative op] {t : ReductionTree α}
    {f : Nat → α} {n : Nat} (h : t.leaves = (List.range (n + 1)).map f) :
    t.fold op = foldRow op f n := by
  rw [List.range_succ_eq_map, List.map_cons, List.map_map] at h
  rw [fold_eq_foldl h, foldRow_eq_foldl]
  rfl

end ReductionTree

/-! ## The first of the largest -/

section Leftmost

variable {K ι : Type*} [LinearOrder K]

/-- The larger of two keyed elements, the left one of equals. -/
def leftmost (a b : K × ι) : K × ι := if b.1 ≤ a.1 then a else b

theorem leftmost_key (a b : K × ι) : (leftmost a b).1 = max a.1 b.1 := by
  unfold leftmost
  split
  · rw [max_eq_left ‹_›]
  · rw [max_eq_right (le_of_not_ge ‹_›)]

theorem leftmost_assoc (a b c : K × ι) :
    leftmost (leftmost a b) c = leftmost a (leftmost b c) := by
  unfold leftmost
  by_cases hab : b.1 ≤ a.1 <;> by_cases hbc : c.1 ≤ b.1
  · rw [if_pos hab, if_pos (hbc.trans hab), if_pos hbc, if_pos hab]
  · rw [if_pos hab, if_neg hbc]
  · rw [if_neg hab, if_pos hbc, if_neg hab]
  · rw [if_neg hab, if_neg hbc,
      if_neg fun hca => hbc (hca.trans (le_of_not_ge hab))]

/-- The fold of a row ends with the first of its largest elements. -/
theorem foldRow_leftmost (key : Nat → K) (n : Nat) :
    ∃ i ≤ n, foldRow leftmost (fun j => (key j, j)) n = (key i, i)
      ∧ (∀ j ≤ n, key j ≤ key i) ∧ ∀ j < i, key j < key i := by
  induction n with
  | zero =>
      refine ⟨0, Nat.le_refl 0, rfl, fun j hj => ?_, fun j hj => absurd hj (by omega)⟩
      rw [Nat.le_zero.mp hj]
  | succ n ih =>
      obtain ⟨i, hi, hfold, hle, hlt⟩ := ih
      rw [foldRow_succ, hfold, leftmost]
      by_cases h : key (n + 1) ≤ key i
      · refine ⟨i, by omega, if_pos h, fun j hj => ?_, hlt⟩
        rcases Nat.le_succ_iff.mp hj with hj | rfl
        · exact hle j hj
        · exact h
      · have hgt : key i < key (n + 1) := lt_of_not_ge h
        refine ⟨n + 1, Nat.le_refl _, if_neg h, fun j hj => ?_, fun j hj => ?_⟩
        · rcases Nat.le_succ_iff.mp hj with hj | rfl
          · exact (hle j hj).trans hgt.le
          · exact le_refl _
        · exact (hle j (by omega)).trans_lt hgt

/-- A fold with the maximum is an upper bound, and one of the elements. -/
theorem foldRow_max (key : Nat → K) (n : Nat) :
    (∀ j ≤ n, key j ≤ foldRow max key n) ∧ ∃ i ≤ n, foldRow max key n = key i := by
  obtain ⟨i, hi, hfold, hle, -⟩ := foldRow_leftmost key n
  have hkey : foldRow max key n = key i :=
    calc foldRow max key n = (foldRow leftmost (fun j => (key j, j)) n).1 :=
          (foldRow_map leftmost_key (fun j => (key j, j)) n).symm
      _ = key i := by rw [hfold]
  rw [hkey]
  exact ⟨hle, i, hi, rfl⟩

end Leftmost

end EclipseNpu.Lib

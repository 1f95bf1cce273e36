import Mathlib.Tactic.Common

/-!
# Lib — Loop

Counted loops over a state with an error exit, and the two rules every
proof about one uses: `forLoop_spec` (total correctness: the invariant
is established, kept, and the loop finishes) and `forLoop_inv` (partial:
whatever the loop returns satisfies the invariant).

`forLoop n f` is `for (i = 0; i < n; i++)`: the recursion peels the LAST
iteration, so an induction on `n` extends a finished prefix by one step.
-/

namespace EclipseNpu.Lib

universe u

variable {ε : Type*} {σ τ : Type u}

/-- The counted loop `for (i = 0; i < n; i++) s = f(i, s)`, stopping at
the first error. -/
def forLoop : Nat → (Nat → σ → Except ε σ) → σ → Except ε σ
  | 0, _, s => .ok s
  | n + 1, f, s => forLoop n f s >>= f n

@[simp] theorem forLoop_zero (f : Nat → σ → Except ε σ) (s : σ) :
    forLoop 0 f s = .ok s := rfl

theorem forLoop_succ (n : Nat) (f : Nat → σ → Except ε σ) (s : σ) :
    forLoop (n + 1) f s = forLoop n f s >>= f n := rfl

/-- The first iteration peeled instead. -/
theorem forLoop_succ' (n : Nat) (f : Nat → σ → Except ε σ) (s : σ) :
    forLoop (n + 1) f s = f 0 s >>= forLoop n fun i => f (i + 1) := by
  induction n with
  | zero => cases h : f 0 s <;> simp [forLoop, h, bind, Except.bind]
  | succ n ih =>
      rw [forLoop_succ, ih]
      cases h : f 0 s <;> rfl

/-- A successful bind splits into its two successful halves. -/
theorem bind_ok {x : Except ε σ} {f : σ → Except ε τ} {r : τ}
    (h : x >>= f = .ok r) : ∃ a, x = .ok a ∧ f a = .ok r := by
  cases x with
  | error e => cases h
  | ok a => exact ⟨a, rfl, h⟩

theorem bind_ok_iff {x : Except ε σ} {f : σ → Except ε τ} {r : τ} :
    x >>= f = .ok r ↔ ∃ a, x = .ok a ∧ f a = .ok r := by
  constructor
  · exact bind_ok
  · rintro ⟨a, rfl, h⟩
    exact h

@[simp] theorem ok_bind (a : σ) (f : σ → Except ε τ) :
    (Except.ok a >>= f : Except ε τ) = f a := rfl

@[simp] theorem error_bind (e : ε) (f : σ → Except ε τ) :
    (Except.error e >>= f : Except ε τ) = .error e := rfl

/-- **Total rule**: an invariant that holds at entry and that every
iteration re-establishes (finishing without an error) holds at exit, and
the loop finishes. -/
theorem forLoop_spec {n : Nat} {f : Nat → σ → Except ε σ} {s : σ}
    (P : Nat → σ → Prop) (h0 : P 0 s)
    (hstep : ∀ i < n, ∀ t, P i t → ∃ t', f i t = .ok t' ∧ P (i + 1) t') :
    ∃ s', forLoop n f s = .ok s' ∧ P n s' := by
  induction n with
  | zero => exact ⟨s, rfl, h0⟩
  | succ n ih =>
      obtain ⟨t, ht, hP⟩ := ih (fun i hi => hstep i (by omega))
      obtain ⟨t', ht', hP'⟩ := hstep n (by omega) t hP
      exact ⟨t', by rw [forLoop_succ, ht]; exact ht', hP'⟩

/-- **Partial rule**: a finished loop satisfies every invariant its
finished iterations keep. -/
theorem forLoop_inv {n : Nat} {f : Nat → σ → Except ε σ} {s s' : σ}
    (P : Nat → σ → Prop) (h0 : P 0 s)
    (hstep : ∀ i < n, ∀ t t', P i t → f i t = .ok t' → P (i + 1) t')
    (h : forLoop n f s = .ok s') : P n s' := by
  induction n generalizing s' with
  | zero => cases h; exact h0
  | succ n ih =>
      rw [forLoop_succ] at h
      obtain ⟨t, ht, hf⟩ := bind_ok h
      exact hstep n (by omega) t s' (ih (fun i hi => hstep i (by omega)) ht) hf

/-- A loop that finished ran each of its iterations to the end. -/
theorem forLoop_prefix {n m : Nat} {f : Nat → σ → Except ε σ} {s s' : σ}
    (h : forLoop n f s = .ok s') (hm : m ≤ n) :
    ∃ t, forLoop m f s = .ok t := by
  induction n generalizing s' with
  | zero =>
      obtain rfl : m = 0 := by omega
      exact ⟨s, rfl⟩
  | succ n ih =>
      rcases Nat.eq_or_lt_of_le hm with rfl | hlt
      · exact ⟨s', h⟩
      · rw [forLoop_succ] at h
        obtain ⟨t, ht, -⟩ := bind_ok h
        exact ih ht (by omega)

/-- Each iteration of a finished loop finished. -/
theorem forLoop_iteration {n i : Nat} {f : Nat → σ → Except ε σ} {s s' : σ}
    (h : forLoop n f s = .ok s') (hi : i < n) : ∃ t t', f i t = .ok t' := by
  obtain ⟨t', ht'⟩ := forLoop_prefix (m := i + 1) h hi
  rw [forLoop_succ] at ht'
  obtain ⟨t, -, hf⟩ := bind_ok ht'
  exact ⟨t, t', hf⟩

/-! ### Runs without a given error -/

theorem bind_ne_error {x : Except ε σ} {f : σ → Except ε τ} {e : ε}
    (hx : x ≠ .error e) (hf : ∀ a, x = .ok a → f a ≠ .error e) :
    x >>= f ≠ .error e := by
  cases x with
  | error e' =>
      intro h
      cases h
      exact hx rfl
  | ok a => exact hf a rfl

/-- A loop whose iterations never end in `e` does not either. -/
theorem forLoop_ne_error {n : Nat} {f : Nat → σ → Except ε σ} {s : σ} {e : ε}
    (h : ∀ i < n, ∀ t, f i t ≠ .error e) : forLoop n f s ≠ .error e := by
  induction n with
  | zero => exact fun h => by cases h
  | succ n ih =>
      rw [forLoop_succ]
      exact bind_ne_error (ih fun i hi => h i (by omega)) fun t _ => h n (by omega) t

/-- Bodies that agree below the bound give the same loop. -/
theorem forLoop_congr {n : Nat} {f g : Nat → σ → Except ε σ} {s : σ}
    (h : ∀ i < n, ∀ t, f i t = g i t) : forLoop n f s = forLoop n g s := by
  induction n with
  | zero => rfl
  | succ n ih =>
      rw [forLoop_succ, forLoop_succ, ih (fun i hi => h i (by omega))]
      cases forLoop n g s with
      | error e => rfl
      | ok t => exact h n (by omega) t

/-- A loop whose body never fails is a fold. -/
theorem forLoop_ok {n : Nat} {f : Nat → σ → Except ε σ} {g : Nat → σ → σ}
    {s : σ} (h : ∀ i < n, ∀ t, f i t = .ok (g i t)) :
    forLoop n f s = .ok ((List.range n).foldl (fun t i => g i t) s) := by
  induction n with
  | zero => rfl
  | succ n ih =>
      rw [forLoop_succ, ih (fun i hi => h i (by omega)), ok_bind,
        h n (by omega), List.range_succ, List.foldl_append]
      rfl

end EclipseNpu.Lib

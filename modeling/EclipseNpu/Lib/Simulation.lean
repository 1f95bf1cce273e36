import EclipseNpu.Lib.Loop

/-!
# Lib — Simulation

Forward simulation by a fallible target: from a state that represents `s` the
target run finishes exactly under a condition on `s`, and then represents `s'`.
Simulations compose along the runs of both sides.
-/

namespace EclipseNpu.Lib

variable {σ τ ε : Type} {R : σ → τ → Prop} {s s' s'' : σ} {f g : τ → Except ε τ} {p q : Prop}

/-- **`f` simulates the step from `s` to `s'`**; it finishes exactly when `p`. -/
def ForwardSim (R : σ → τ → Prop) (f : τ → Except ε τ) (p : Prop) (s s' : σ) : Prop :=
  ∀ t, R s t → ((∃ t', f t = .ok t') ↔ p) ∧ ∀ t', f t = .ok t' → R s' t'

theorem ForwardSim.refl : ForwardSim R (Except.ok : τ → Except ε τ) True s s := by
  intro t ht
  refine ⟨iff_of_true ⟨t, rfl⟩ trivial, fun t' ht' => ?_⟩
  cases ht'
  exact ht

/-- A step that always finishes. -/
theorem ForwardSim.total (h : ∀ t, R s t → ∃ t', f t = .ok t' ∧ R s' t') :
    ForwardSim R f True s s' := by
  intro t ht
  obtain ⟨v, hv, hR⟩ := h t ht
  refine ⟨iff_of_true ⟨v, hv⟩ trivial, fun t' ht' => ?_⟩
  rw [hv] at ht'
  cases ht'
  exact hR

/-- **One run after the other.** -/
theorem ForwardSim.seq (hf : ForwardSim R f p s s') (hg : ForwardSim R g q s' s'') :
    ForwardSim R (fun t => f t >>= g) (p ∧ q) s s'' := by
  intro t ht
  obtain ⟨hfin, hrel⟩ := hf t ht
  dsimp only
  cases hrun : f t with
  | error e =>
      have hp : ¬ p := fun hp => by
        obtain ⟨v, hv⟩ := hfin.mpr hp
        rw [hrun] at hv
        cases hv
      refine ⟨iff_of_false (fun hex => ?_) fun hpq => hp hpq.1, fun t' ht' => ?_⟩
      · obtain ⟨v, hv⟩ := hex
        cases hv
      · cases ht'
  | ok v =>
      have hp : p := hfin.mp ⟨v, hrun⟩
      obtain ⟨hfin', hrel'⟩ := hg v (hrel v hrun)
      rw [ok_bind]
      exact ⟨hfin'.trans ⟨fun hq => ⟨hp, hq⟩, And.right⟩, hrel'⟩

/-- A target that runs as another from states that represent the same. -/
theorem ForwardSim.of_eq (hf : ForwardSim R f p s s')
    (h : ∀ t, R s t → ∃ v, R s v ∧ g t = f v) : ForwardSim R g p s s' := by
  intro t ht
  obtain ⟨v, hv, hrun⟩ := h t ht
  rw [hrun]
  exact hf v hv

end EclipseNpu.Lib

import Mathlib.Data.List.Basic
import Mathlib.Data.List.FinRange
import Mathlib.Data.List.Induction
import Mathlib.Logic.Function.Basic

/-!
# Lib — Arbiter

A fixed-priority arbiter written as two nested loops: every target walks
the requesters in order and takes the first one that asks for it. Afterwards
each target holds its first requester and nobody else was served
(`arbitrate_spec`).
-/

namespace EclipseNpu.Lib

variable {I B P : Type*} [DecidableEq I] [DecidableEq B]

/-- What the loops have decided so far. -/
structure Grants (I B P : Type*) where
  found : B → Bool
  served : I → Bool
  load : B → P

/-- `b` takes `i`. -/
def Grants.take (payload : I → P) (b : B) (i : I) (g : Grants I B P) :
    Grants I B P :=
  { found := Function.update g.found b true
    served := Function.update g.served i true
    load := Function.update g.load b (payload i) }

/-- The loop body: `b` takes `i` if it has nobody yet and `i` asks for it. -/
def Grants.offer (target : I → Option B) (payload : I → P) (b : B)
    (g : Grants I B P) (i : I) : Grants I B P :=
  if !g.found b && decide (target i = some b) then g.take payload b i else g

/-- Both loops, from nothing decided. -/
def arbitrate (target : I → Option B) (payload : I → P) (idle : P)
    (banks : List B) (slots : List I) : Grants I B P :=
  banks.foldl (fun g b => slots.foldl (Grants.offer target payload b) g)
    ⟨fun _ => false, fun _ => false, fun _ => idle⟩

/-- The first requester of `b`. -/
def firstSlot (target : I → Option B) (slots : List I) (b : B) : Option I :=
  slots.find? fun i => decide (target i = some b)

section Loops

variable {target : I → Option B} {payload : I → P} {idle : P} {slots : List I}

/-- A target that has somebody takes nobody else. -/
theorem offers_found {b : B} {g : Grants I B P} (h : g.found b = true) :
    slots.foldl (Grants.offer target payload b) g = g := by
  induction slots with
  | nil => rfl
  | cons i slots ih =>
      rw [List.foldl_cons, Grants.offer, h]
      exact ih

/-- The inner loop. -/
theorem offers_eq {b : B} {g : Grants I B P} (h : g.found b = false) :
    slots.foldl (Grants.offer target payload b) g
      = match firstSlot target slots b with
        | some i => g.take payload b i
        | none => g := by
  induction slots with
  | nil => rfl
  | cons i slots ih =>
      rw [List.foldl_cons, Grants.offer, h, firstSlot, List.find?_cons]
      by_cases hi : target i = some b
      · rw [decide_eq_true hi]
        refine offers_found ?_
        exact Function.update_self b true g.found
      · rw [decide_eq_false hi]
        exact ih

/-- What is decided once the targets of `done` have walked the slots. -/
structure Decided (target : I → Option B) (payload : I → P) (idle : P)
    (slots : List I) (done : List B) (g : Grants I B P) : Prop where
  found : ∀ b, g.found b = true ↔ b ∈ done ∧ (firstSlot target slots b).isSome
  served : ∀ i, g.served i = true ↔ ∃ b ∈ done, firstSlot target slots b = some i
  load : ∀ b, b ∈ done →
    g.load b = ((firstSlot target slots b).map payload).getD idle
  idle : ∀ b, b ∉ done → g.load b = idle

/-- One more target. -/
theorem Decided.step {done : List B} {b : B} {g : Grants I B P}
    (h : Decided target payload idle slots done g) (hb : b ∉ done) :
    Decided target payload idle slots (done ++ [b])
      (slots.foldl (Grants.offer target payload b) g) := by
  have hnot : g.found b = false := by
    rw [← Bool.not_eq_true, h.found]
    exact fun hc => hb hc.1
  rw [offers_eq hnot]
  cases hf : firstSlot target slots b with
  | none =>
      refine ⟨fun c => ?_, fun i => ?_, fun c hc => ?_, fun c hc => ?_⟩
      · rw [h.found, List.mem_append, List.mem_singleton]
        refine ⟨fun hc => ⟨.inl hc.1, hc.2⟩, fun hc => ⟨hc.1.resolve_right ?_, hc.2⟩⟩
        rintro rfl
        rw [hf] at hc
        cases hc.2
      · rw [h.served]
        refine ⟨fun ⟨c, hc, hi⟩ => ⟨c, by simp [hc], hi⟩, fun ⟨c, hc, hi⟩ => ?_⟩
        rcases List.mem_append.mp hc with hc | hc
        · exact ⟨c, hc, hi⟩
        · rw [List.mem_singleton.mp hc, hf] at hi
          cases hi
      · rcases List.mem_append.mp hc with hc | hc
        · exact h.load c hc
        · rw [List.mem_singleton.mp hc, hf]
          exact h.idle b hb
      · exact h.idle c fun hm => hc (by simp [hm])
  | some i =>
      refine ⟨fun c => ?_, fun j => ?_, fun c hc => ?_, fun c hc => ?_⟩
      · show Function.update g.found b true c = true ↔ _
        by_cases hcb : c = b
        · subst hcb
          simp [hf]
        · rw [Function.update_of_ne hcb, h.found, List.mem_append,
            List.mem_singleton]
          simp [hcb]
      · show Function.update g.served i true j = true ↔ _
        by_cases hji : j = i
        · subst hji
          simp [hf]
        · rw [Function.update_of_ne hji, h.served]
          refine ⟨fun ⟨c, hc, hj⟩ => ⟨c, by simp [hc], hj⟩, fun ⟨c, hc, hj⟩ => ?_⟩
          rcases List.mem_append.mp hc with hc | hc
          · exact ⟨c, hc, hj⟩
          · rw [List.mem_singleton.mp hc, hf] at hj
            exact absurd (Option.some.inj hj).symm hji
      · show Function.update g.load b (payload i) c = _
        by_cases hcb : c = b
        · subst hcb
          rw [Function.update_self, hf]
          rfl
        · rw [Function.update_of_ne hcb]
          exact h.load c ((List.mem_append.mp hc).resolve_right fun hm =>
            hcb (List.mem_singleton.mp hm))
      · have hcb : c ≠ b := fun hcb => hc (by simp [hcb])
        show Function.update g.load b (payload i) c = _
        rw [Function.update_of_ne hcb]
        exact h.idle c fun hm => hc (by simp [hm])

/-- **The arbiter.** -/
theorem arbitrate_spec {banks : List B} (hnd : banks.Nodup) :
    Decided target payload idle slots banks
      (arbitrate target payload idle banks slots) := by
  unfold arbitrate
  induction banks using List.reverseRecOn with
  | nil => exact ⟨by simp, by simp, by simp, fun b _ => rfl⟩
  | append_singleton done b ih =>
      rw [List.foldl_append]
      rw [List.nodup_append] at hnd
      obtain ⟨hdone, -, hne⟩ := hnd
      exact (ih hdone).step fun hb => hne b hb b (List.mem_singleton.mpr rfl) rfl

end Loops

/-! ## Numbered slots -/

/-- The first requester is the lowest-numbered one. -/
theorem firstSlot_finRange {n : Nat} {target : Fin n → Option B} {b : B} {i : Fin n} :
    firstSlot target (List.finRange n) b = some i
      ↔ target i = some b ∧ ∀ j, target j = some b → i ≤ j := by
  rw [firstSlot, List.find?_eq_some_iff_getElem]
  simp only [decide_eq_true_eq, List.getElem_finRange, Bool.not_eq_true',
    decide_eq_false_iff_not]
  constructor
  · rintro ⟨hi, k, hk, rfl, hlt⟩
    refine ⟨hi, fun j hj => ?_⟩
    by_contra hji
    exact hlt j.val (Fin.lt_def.mp (not_le.mp hji)) hj
  · rintro ⟨hi, hle⟩
    refine ⟨hi, i.val, by simp, Fin.ext rfl, fun k hk hj => ?_⟩
    exact absurd (hle _ hj) (not_le.mpr (Fin.lt_def.mpr hk))

/-- A target somebody asks for has a first requester. -/
theorem firstSlot_isSome {n : Nat} {target : Fin n → Option B} {b : B} {i : Fin n}
    (h : target i = some b) : (firstSlot target (List.finRange n) b).isSome := by
  rw [firstSlot, List.find?_isSome]
  exact ⟨i, List.mem_finRange i, decide_eq_true h⟩

end EclipseNpu.Lib

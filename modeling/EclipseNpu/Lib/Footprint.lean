import EclipseNpu.Lib.Loop
import Mathlib.Data.Set.Basic
import Mathlib.Data.List.Perm.Basic

/-!
# Lib — Footprint

Partial operations on a store `Loc → V`, described by the locations they
may read and the locations they may write. Nothing here knows a program:
locations, values and errors are arbitrary types.

`Footprint f R W` is semantic. Outside `W` the operation changes nothing,
and on two stores that agree on `R` it fails or finishes alike and leaves
every location either with one common value or untouched in both runs.
Footprints compose (`Footprint.bind`, `Footprint.forLoop`), operations
with non-conflicting footprints commute (`Footprint.comm`), and a list of
pairwise non-conflicting operations may be run in any order
(`runAll_perm`), also when the order is free only between barriers
(`runAll_reorder`).
-/

namespace EclipseNpu.Lib

universe u

variable {Loc V α β : Type u} {ε ι : Type*}

/-- Two stores give the locations of `R` the same values. -/
def AgreeOn (R : Set Loc) (s t : Loc → V) : Prop := ∀ l ∈ R, s l = t l

theorem AgreeOn.symm {R : Set Loc} {s t : Loc → V} (h : AgreeOn R s t) :
    AgreeOn R t s := fun l hl => (h l hl).symm

theorem AgreeOn.mono {R R' : Set Loc} {s t : Loc → V} (h : AgreeOn R s t)
    (hsub : R' ⊆ R) : AgreeOn R' s t := fun l hl => h l (hsub hl)

/-- `g` computes a value from the locations of `R` alone. -/
def Reads (g : (Loc → V) → Except ε α) (R : Set Loc) : Prop :=
  ∀ s t, AgreeOn R s t → g s = g t

/-- `f` reads inside `R` and writes inside `W`. -/
structure Footprint (f : (Loc → V) → Except ε (Loc → V)) (R W : Set Loc) :
    Prop where
  frame : ∀ {s s'}, f s = .ok s' → ∀ l, l ∉ W → s' l = s l
  locality : ∀ {s t s'}, AgreeOn R s t → f s = .ok s' →
    ∃ t', f t = .ok t' ∧ ∀ l, s' l = t' l ∨ (s' l = s l ∧ t' l = t l)

/-! ## How footprints compose -/

theorem Reads.const (a : Except ε α) (R : Set Loc) :
    Reads (fun _ : Loc → V => a) R := fun _ _ _ => rfl

theorem Reads.mono {g : (Loc → V) → Except ε α} {R R' : Set Loc}
    (h : Reads g R) (hsub : R ⊆ R') : Reads g R' :=
  fun s t hst => h s t (hst.mono hsub)

theorem Reads.bind {g : (Loc → V) → Except ε α}
    {k : α → (Loc → V) → Except ε β} {R : Set Loc} (hg : Reads g R)
    (hk : ∀ a, Reads (k a) R) : Reads (fun s => g s >>= fun a => k a s) R := by
  intro s t hst
  show g s >>= (fun a => k a s) = g t >>= (fun a => k a t)
  rw [hg s t hst]
  congr 1
  funext a
  exact hk a s t hst

/-- A loop that only accumulates a value reads what its body reads. -/
theorem Reads.forLoop {R : Set Loc} {n : Nat}
    {f : Nat → α → (Loc → V) → Except ε α} (h : ∀ i < n, ∀ a, Reads (f i a) R)
    (a : α) : Reads (fun s => forLoop n (fun i a => f i a s) a) R := by
  intro s t hst
  exact forLoop_congr fun i hi b => h i hi b s t hst

theorem Footprint.mono {f : (Loc → V) → Except ε (Loc → V)}
    {R W R' W' : Set Loc} (h : Footprint f R W) (hR : R ⊆ R') (hW : W ⊆ W') :
    Footprint f R' W' :=
  ⟨fun hf l hl => h.frame hf l (fun hw => hl (hW hw)),
    fun hst hf => h.locality (hst.mono hR) hf⟩

/-- The operation that does nothing. -/
theorem Footprint.pure (R W : Set Loc) :
    Footprint (fun s : Loc → V => (.ok s : Except ε _)) R W := by
  refine ⟨fun h l _ => by cases h; rfl, fun {s t s'} _ h => ?_⟩
  cases h
  exact ⟨t, rfl, fun l => .inr ⟨rfl, rfl⟩⟩

theorem Footprint.error (e : ε) (R W : Set Loc) :
    Footprint (fun _ : Loc → V => (.error e : Except ε (Loc → V))) R W :=
  ⟨fun h => (by cases h), fun _ h => (by cases h)⟩

/-- After an operation with footprint `R`, `W` on stores that agree on
`R`, the results agree on `R` again. -/
theorem Footprint.agree {f : (Loc → V) → Except ε (Loc → V)} {R W : Set Loc}
    (h : Footprint f R W) {s t s' t' : Loc → V} (hst : AgreeOn R s t)
    (hs : f s = .ok s') (ht : f t = .ok t') : AgreeOn R s' t' := by
  obtain ⟨t'', ht'', hl⟩ := h.locality hst hs
  rw [ht] at ht''
  cases ht''
  intro l hlR
  rcases hl l with heq | ⟨h1, h2⟩
  · exact heq
  · rw [h1, h2, hst l hlR]

/-- An update that sets exactly the locations of `W'`, each from `R`. -/
theorem Footprint.assign {g : (Loc → V) → Loc → V} {R W : Set Loc} (W' : Set Loc)
    (hsub : W' ⊆ W) (hout : ∀ s l, l ∉ W' → g s l = s l)
    (hin : ∀ s t, AgreeOn R s t → ∀ l ∈ W', g s l = g t l) :
    Footprint (fun s => (.ok (g s) : Except ε (Loc → V))) R W := by
  refine ⟨fun {s s'} h l hl => ?_, fun {s t s'} hst h => ?_⟩
  · cases h
    exact hout s l fun hw => hl (hsub hw)
  · cases h
    refine ⟨g t, rfl, fun l => ?_⟩
    by_cases hl : l ∈ W'
    · exact .inl (hin s t hst l hl)
    · exact .inr ⟨hout s l hl, hout t l hl⟩

theorem Footprint.bind {f g : (Loc → V) → Except ε (Loc → V)} {R W : Set Loc}
    (hf : Footprint f R W) (hg : Footprint g R W) :
    Footprint (fun s => f s >>= g) R W := by
  refine ⟨fun {s s'} h l hl => ?_, fun {s t s'} hst h => ?_⟩
  · obtain ⟨u, hu, hgu⟩ := bind_ok h
    rw [hg.frame hgu l hl, hf.frame hu l hl]
  · obtain ⟨u, hu, hgu⟩ := bind_ok h
    obtain ⟨v, hv, huv⟩ := hf.locality hst hu
    obtain ⟨t', ht', hst'⟩ := hg.locality (hf.agree hst hu hv) hgu
    refine ⟨t', by simp only [hv, ok_bind, ht'], fun l => ?_⟩
    rcases hst' l with heq | ⟨h1, h2⟩
    · exact .inl heq
    · rcases huv l with heq | ⟨h3, h4⟩
      · exact .inl (by rw [h1, h2, heq])
      · exact .inr ⟨by rw [h1, h3], by rw [h2, h4]⟩

/-- Read a value, then run an operation that depends on it. -/
theorem Footprint.readBind {g : (Loc → V) → Except ε α}
    {k : α → (Loc → V) → Except ε (Loc → V)} {R W : Set Loc} (hg : Reads g R)
    (hk : ∀ a, Footprint (k a) R W) :
    Footprint (fun s => g s >>= fun a => k a s) R W := by
  refine ⟨fun {s s'} h l hl => ?_, fun {s t s'} hst h => ?_⟩
  · obtain ⟨a, -, hka⟩ := bind_ok h
    exact (hk a).frame hka l hl
  · obtain ⟨a, ha, hka⟩ := bind_ok h
    obtain ⟨t', ht', hl⟩ := (hk a).locality hst hka
    exact ⟨t', by simp only [← hg s t hst, ha, ok_bind, ht'], hl⟩

/-- A value that does not depend on the store is known to the rest. -/
theorem Reads.bindConst {x : Except ε α} {k : α → (Loc → V) → Except ε β}
    {R : Set Loc} (h : ∀ a, x = .ok a → Reads (k a) R) :
    Reads (fun s => x >>= fun a => k a s) R := by
  cases x with
  | error e => exact fun _ _ _ => rfl
  | ok a => exact h a rfl

theorem Footprint.bindConst {x : Except ε α}
    {k : α → (Loc → V) → Except ε (Loc → V)} {R W : Set Loc}
    (h : ∀ a, x = .ok a → Footprint (k a) R W) :
    Footprint (fun s => x >>= fun a => k a s) R W := by
  cases x with
  | error e => exact Footprint.error e R W
  | ok a => exact h a rfl

theorem Footprint.forLoop {R W : Set Loc} {n : Nat}
    {f : Nat → (Loc → V) → Except ε (Loc → V)}
    (h : ∀ i < n, Footprint (f i) R W) : Footprint (forLoop n f) R W := by
  induction n with
  | zero => exact Footprint.pure R W
  | succ n ih =>
      exact Footprint.bind (ih fun i hi => h i (by omega)) (h n (by omega))

/-! ## Operations that do not conflict commute -/

/-- No RAW, WAR or WAW conflict between two footprints. -/
structure Disjoint2 (R₁ W₁ R₂ W₂ : Set Loc) : Prop where
  raw : ∀ l ∈ W₁, l ∉ R₂
  war : ∀ l ∈ W₂, l ∉ R₁
  waw : ∀ l ∈ W₁, l ∉ W₂

theorem Disjoint2.symm {R₁ W₁ R₂ W₂ : Set Loc} (h : Disjoint2 R₁ W₁ R₂ W₂) :
    Disjoint2 R₂ W₂ R₁ W₁ :=
  ⟨h.war, h.raw, fun l h2 h1 => h.waw l h1 h2⟩

/-- **Two operations without a conflict may be exchanged.** -/
theorem Footprint.comm {f g : (Loc → V) → Except ε (Loc → V)}
    {R₁ W₁ R₂ W₂ : Set Loc} (hf : Footprint f R₁ W₁) (hg : Footprint g R₂ W₂)
    (hd : Disjoint2 R₁ W₁ R₂ W₂) {s s₂ : Loc → V}
    (h : f s >>= g = .ok s₂) : g s >>= f = .ok s₂ := by
  obtain ⟨s₁, hs₁, hs₂⟩ := bind_ok h
  have hR₂ : AgreeOn R₂ s₁ s := fun l hl =>
    hf.frame hs₁ l fun hw => hd.raw l hw hl
  obtain ⟨u, hu, hgl⟩ := hg.locality hR₂ hs₂
  have hR₁ : AgreeOn R₁ s u := fun l hl =>
    (hg.frame hu l fun hw => hd.war l hw hl).symm
  obtain ⟨v, hv, hfl⟩ := hf.locality hR₁ hs₁
  rw [hu, ok_bind, hv]
  congr 1
  funext l
  by_cases hl : l ∈ W₁
  · have hn : l ∉ W₂ := hd.waw l hl
    have e2 : s₂ l = s₁ l := hg.frame hs₂ l hn
    have eu : u l = s l := hg.frame hu l hn
    rcases hfl l with heq | ⟨h1, h2⟩
    · rw [← heq, e2]
    · rw [h2, eu, e2, h1]
  · have e1 : s₁ l = s l := hf.frame hs₁ l hl
    have ev : v l = u l := hf.frame hv l hl
    rcases hgl l with heq | ⟨h1, h2⟩
    · rw [ev, ← heq]
    · rw [ev, h2, h1, e1]

/-! ## Runs of labelled operations -/

section Runs

variable (op : ι → (Loc → V) → Except ε (Loc → V)) (R W : ι → Set Loc)

/-- Run the operations of `xs` one after another. -/
def runAll : List ι → (Loc → V) → Except ε (Loc → V)
  | [], s => .ok s
  | x :: xs, s => op x s >>= runAll xs

theorem runAll_append (xs ys : List ι) (s : Loc → V) :
    runAll op (xs ++ ys) s = runAll op xs s >>= runAll op ys := by
  induction xs generalizing s with
  | nil => rfl
  | cons x xs ih =>
      simp only [List.cons_append, runAll]
      cases op x s with
      | error e => rfl
      | ok t => exact ih t

/-- A run of groups of operations is a loop over the groups. -/
theorem runAll_flatMap_range (f : Nat → List ι) (n : Nat) (s : Loc → V) :
    runAll op ((List.range n).flatMap f) s
      = forLoop n (fun i => runAll op (f i)) s := by
  induction n with
  | zero => rfl
  | succ n ih =>
      rw [List.range_succ, List.flatMap_append, runAll_append, ih, forLoop_succ,
        List.flatMap_cons, List.flatMap_nil, List.append_nil]

/-- The labels `x` and `y` have no conflict. -/
def Independent (x y : ι) : Prop := Disjoint2 (R x) (W x) (R y) (W y)

/-- **Any order gives the same result**: a list of pairwise
non-conflicting operations that runs to the end runs to the same end in
every permutation. -/
theorem runAll_perm {xs ys : List ι} (hp : xs.Perm ys)
    (hfp : ∀ x ∈ xs, Footprint (op x) (R x) (W x))
    (hind : xs.Pairwise (Independent R W)) {s s' : Loc → V}
    (h : runAll op xs s = .ok s') : runAll op ys s = .ok s' := by
  induction hp generalizing s with
  | nil => exact h
  | cons x hp ih =>
      simp only [runAll] at h ⊢
      obtain ⟨t, ht, hr⟩ := bind_ok h
      rw [ht]
      exact ih (fun y hy => hfp y (by simp [hy])) (List.Pairwise.of_cons hind) hr
  | swap x y xs =>
      have hxy : Independent R W y x := by
        have := (List.pairwise_cons.mp hind).1
        exact this x (by simp)
      have h2 : op y s >>= op x >>= runAll op xs = .ok s' := by
        simp only [runAll] at h
        rw [← h]
        cases op y s <;> rfl
      obtain ⟨t, ht, hr⟩ := bind_ok h2
      have := (hfp y (by simp)).comm (hfp x (by simp)) hxy ht
      show op x s >>= (fun u => op y u >>= runAll op xs) = .ok s'
      obtain ⟨u, hu, hut⟩ := bind_ok this
      rw [hu, ok_bind, hut]
      exact hr
  | trans hp1 _ ih1 ih2 =>
      refine ih2 (fun y hy => hfp y (hp1.mem_iff.mpr hy)) ?_ (ih1 hfp hind h)
      exact (hp1.pairwise_iff (fun {_ _} hxy => Disjoint2.symm hxy)).mp hind

/-- Reorderings that keep every barrier in place and permute only the
operations between two barriers. -/
inductive Reorder (bar : ι → Prop) : List ι → List ι → Prop
  | last {xs ys : List ι} (hp : xs.Perm ys) (hx : ∀ x ∈ xs, ¬ bar x) :
      Reorder bar xs ys
  | seg {xs ys xs' ys' : List ι} {b : ι} (hp : xs.Perm ys)
      (hx : ∀ x ∈ xs, ¬ bar x) (hb : bar b) (h : Reorder bar xs' ys') :
      Reorder bar (xs ++ b :: xs') (ys ++ b :: ys')

/-- **Order independence between barriers.** Pairwise independence is
asked of each segment of the original order only. -/
theorem runAll_reorder {bar : ι → Prop} {xs ys : List ι}
    (hr : Reorder bar xs ys)
    (hfp : ∀ x ∈ xs, Footprint (op x) (R x) (W x))
    (hind : ∀ pre seg post, xs = pre ++ seg ++ post → (∀ x ∈ seg, ¬ bar x) →
      seg.Pairwise (Independent R W))
    {s s' : Loc → V} (h : runAll op xs s = .ok s') :
    runAll op ys s = .ok s' := by
  induction hr generalizing s with
  | @last xs ys hp hx =>
      exact runAll_perm op R W hp hfp (hind [] xs [] (by simp) hx) h
  | @seg xs ys xs' ys' b hp hx hb _ ih =>
      rw [runAll_append] at h ⊢
      obtain ⟨t, ht, hrest⟩ := bind_ok h
      have hseg := hind [] xs (b :: xs') (by simp) hx
      rw [runAll_perm op R W hp (fun x hxm => hfp x (by simp [hxm])) hseg ht,
        ok_bind]
      simp only [runAll] at hrest ⊢
      obtain ⟨u, hu, hru⟩ := bind_ok hrest
      rw [hu, ok_bind]
      refine ih (fun x hxm => hfp x (by simp [hxm])) ?_ hru
      intro pre sg post heq hsg
      exact hind (xs ++ b :: pre) sg post (by simp [heq]) hsg

end Runs

end EclipseNpu.Lib

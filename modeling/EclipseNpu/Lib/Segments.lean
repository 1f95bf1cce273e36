import EclipseNpu.Lib.Footprint
import Mathlib.Data.List.Pairwise
import Mathlib.Data.List.Basic

/-!
# Lib — Segments

A list that separators cut into segments, and a relation that holds between any
two elements of one segment. `SegmentsFrom` walks the list and keeps what it has
seen of the open segment; `segments_iff` says what the walk decides. Operations
that are independent within their segments end alike in every order that keeps the
segments (`runAll_segments`).
-/

namespace EclipseNpu.Lib

section Segments

variable {α : Type}

/-- `R` holds between any two elements of a segment of the list; the first
segment goes on from `seen`. -/
def SegmentsFrom (sep : α → Bool) (R : α → α → Prop) : List α → List α → Prop
  | _, [] => True
  | seen, x :: xs =>
      if sep x then SegmentsFrom sep R [] xs
      else (∀ y ∈ seen, R y x) ∧ SegmentsFrom sep R (seen ++ [x]) xs

/-- `R` holds between any two elements of a segment. -/
def Segments (sep : α → Bool) (R : α → α → Prop) (xs : List α) : Prop :=
  SegmentsFrom sep R [] xs

variable {sep : α → Bool} {R : α → α → Prop} {seen seg xs : List α} {x : α}

@[simp] theorem segmentsFrom_nil : SegmentsFrom sep R seen [] := trivial

theorem segmentsFrom_sep (hx : sep x = true) :
    SegmentsFrom sep R seen (x :: xs) ↔ SegmentsFrom sep R [] xs := by
  rw [SegmentsFrom, if_pos hx]

theorem segmentsFrom_cons (hx : sep x = false) :
    SegmentsFrom sep R seen (x :: xs)
      ↔ (∀ y ∈ seen, R y x) ∧ SegmentsFrom sep R (seen ++ [x]) xs := by
  rw [SegmentsFrom, if_neg (by simp [hx])]

/-- **A piece without separators**, in front of the rest. -/
theorem segmentsFrom_append (hseg : ∀ x ∈ seg, sep x = false) :
    SegmentsFrom sep R seen (seg ++ xs)
      ↔ (∀ x ∈ seg, ∀ y ∈ seen, R y x) ∧ seg.Pairwise R
        ∧ SegmentsFrom sep R (seen ++ seg) xs := by
  induction seg generalizing seen with
  | nil => simp
  | cons x seg ih =>
      have htail : ∀ y ∈ seg, sep y = false := fun y hy => hseg y (by simp [hy])
      rw [List.cons_append, segmentsFrom_cons (hseg x (by simp)), ih htail,
        List.append_assoc, List.singleton_append, List.pairwise_cons]
      constructor
      · intro ⟨hx, hy, hpair, hrest⟩
        refine ⟨?_, ⟨fun y hmem => hy y hmem x (by simp), hpair⟩, hrest⟩
        intro y hmem z hz
        rcases List.mem_cons.mp hmem with rfl | hmem
        · exact hx z hz
        · exact hy y hmem z (by simp [hz])
      · intro ⟨hy, ⟨hx, hpair⟩, hrest⟩
        refine ⟨hy x (by simp), ?_, hpair, hrest⟩
        intro y hmem z hz
        rcases List.mem_append.mp hz with hz | hz
        · exact hy y (by simp [hmem]) z hz
        · rw [List.mem_singleton.mp hz]
          exact hx y hmem

/-- The same up to a separator. -/
theorem segmentsFrom_closed (hseg : ∀ x ∈ seg, sep x = false) (hx : sep x = true) :
    SegmentsFrom sep R seen (seg ++ x :: xs)
      ↔ (∀ x ∈ seg, ∀ y ∈ seen, R y x) ∧ seg.Pairwise R ∧ SegmentsFrom sep R [] xs := by
  rw [segmentsFrom_append hseg, segmentsFrom_sep hx]

/-- Less to compare with. -/
theorem SegmentsFrom.mono {seen' : List α} (hsub : ∀ y ∈ seen', y ∈ seen)
    (h : SegmentsFrom sep R seen xs) : SegmentsFrom sep R seen' xs := by
  induction xs generalizing seen seen' with
  | nil => exact trivial
  | cons x xs ih =>
      by_cases hx : sep x = true
      · rw [segmentsFrom_sep hx] at h ⊢
        exact h
      · rw [Bool.not_eq_true] at hx
        rw [segmentsFrom_cons hx] at h ⊢
        refine ⟨fun y hy => h.1 y (hsub y hy), ih ?_ h.2⟩
        intro y hy
        rcases List.mem_append.mp hy with hy | hy
        · exact List.mem_append_left _ (hsub y hy)
        · exact List.mem_append_right _ hy

theorem SegmentsFrom.suffix {pre : List α} (h : SegmentsFrom sep R seen (pre ++ xs)) :
    SegmentsFrom sep R [] xs := by
  induction pre generalizing seen with
  | nil => exact h.mono (by simp)
  | cons x pre ih =>
      by_cases hx : sep x = true
      · rw [List.cons_append, segmentsFrom_sep hx] at h
        exact ih h
      · rw [Bool.not_eq_true] at hx
        rw [List.cons_append, segmentsFrom_cons hx] at h
        exact ih h.2

/-- **What the walk decides**: in every piece without separators any two elements
are related. -/
theorem segments_iff : Segments sep R xs ↔
    ∀ pre seg post, xs = pre ++ seg ++ post → (∀ x ∈ seg, sep x = false) →
      seg.Pairwise R := by
  constructor
  · intro h pre seg post heq hseg
    rw [Segments, heq, List.append_assoc] at h
    exact ((segmentsFrom_append hseg).mp h.suffix).2.1
  · intro h
    -- the open segment is the end of what was walked
    have hwalk : ∀ (rest seen pre : List α), xs = pre ++ seen ++ rest →
        (∀ x ∈ seen, sep x = false) → SegmentsFrom sep R seen rest := by
      intro rest
      induction rest with
      | nil => intro _ _ _ _; exact trivial
      | cons x rest ih =>
          intro seen pre heq hseen
          by_cases hx : sep x = true
          · rw [segmentsFrom_sep hx]
            exact ih [] (pre ++ seen ++ [x]) (by simp [heq]) (by simp)
          · rw [Bool.not_eq_true] at hx
            have hopen : ∀ y ∈ seen ++ [x], sep y = false := by
              intro y hy
              rcases List.mem_append.mp hy with hy | hy
              · exact hseen y hy
              · rw [List.mem_singleton.mp hy]
                exact hx
            have hpair := h pre (seen ++ [x]) rest (by simp [heq]) hopen
            rw [segmentsFrom_cons hx]
            refine ⟨fun y hy => ?_, ih _ pre (by simp [heq]) hopen⟩
            exact (List.pairwise_append.mp hpair).2.2 y hy x (by simp)
    exact hwalk xs [] [] rfl (by simp)

/-! ## Positions -/

theorem getElem?_piece {pre post : List α} {k : Nat} (hk : k < seg.length) :
    (pre ++ seg ++ post)[pre.length + k]? = some seg[k] := by
  rw [List.append_assoc, List.getElem?_append_right (by omega), Nat.add_sub_cancel_left,
    List.getElem?_append_left hk, List.getElem?_eq_getElem hk]

/-- The piece from position `i` to position `j`. -/
theorem append_between {i j : Nat} (h : i ≤ j) (xs : List α) :
    xs.take i ++ (xs.drop i).take (j + 1 - i) ++ xs.drop (j + 1) = xs := by
  have hdrop : (xs.drop i).drop (j + 1 - i) = xs.drop (j + 1) := by
    rw [List.drop_drop]
    congr 1
    omega
  rw [List.append_assoc, ← hdrop, List.take_append_drop, List.take_append_drop]

theorem getElem?_between {i k n : Nat} (hk : k < n) :
    ((xs.drop i).take n)[k]? = xs[i + k]? := by
  rw [List.getElem?_take_of_lt hk, List.getElem?_drop]

/-- **Positions of one segment** hold related elements. -/
theorem segments_iff_getElem : Segments sep R xs ↔
    ∀ (i j : Nat) (x y : α), i < j → xs[i]? = some x → xs[j]? = some y →
      (∀ k z, i ≤ k → k ≤ j → xs[k]? = some z → sep z = false) → R x y := by
  rw [segments_iff]
  constructor
  · intro h i j x y hij hx hy hnone
    have hpair := h _ _ _ (append_between (Nat.le_of_lt hij) xs).symm fun z hz => by
      obtain ⟨k, hk, hkz⟩ := List.mem_iff_getElem.mp hz
      have hlt : k < j + 1 - i := Nat.lt_of_lt_of_le hk (List.length_take_le _ _)
      refine hnone (i + k) z (by omega) (by omega) ?_
      rw [← getElem?_between hlt, List.getElem?_eq_getElem hk, hkz]
    rw [List.pairwise_iff_getElem] at hpair
    -- the ends of the piece from `i` to `j`
    have hx' : ((xs.drop i).take (j + 1 - i))[0]? = some x :=
      (getElem?_between (by omega)).trans hx
    have hy' : ((xs.drop i).take (j + 1 - i))[j - i]? = some y := by
      rw [getElem?_between (by omega), Nat.add_sub_cancel' (by omega), hy]
    obtain ⟨h₀, rfl⟩ := List.getElem?_eq_some_iff.mp hx'
    obtain ⟨h₁, rfl⟩ := List.getElem?_eq_some_iff.mp hy'
    exact hpair 0 (j - i) h₀ h₁ (by omega)
  · intro h pre seg post heq hseg
    rw [List.pairwise_iff_getElem]
    intro i j hi hj hij
    have hget : ∀ k (hk : k < seg.length), xs[pre.length + k]? = some seg[k] := by
      intro k hk
      rw [heq]
      exact getElem?_piece hk
    refine h (pre.length + i) (pre.length + j) _ _ (by omega) (hget i hi) (hget j hj) ?_
    -- what stands between two positions of a piece is in the piece
    intro k z hik hkj hz
    obtain ⟨k, rfl⟩ : ∃ k', k = pre.length + k' := ⟨k - pre.length, by omega⟩
    have hk : k < seg.length := by omega
    rw [hget k hk] at hz
    cases hz
    exact hseg _ (List.getElem_mem hk)

/-- The same for a relation that holds at every separator: only what stands strictly
between matters. -/
theorem segments_iff_between (hsep : ∀ x y, sep x = true ∨ sep y = true → R x y) :
    Segments sep R xs ↔ ∀ (i j : Nat) (x y : α), i < j → xs[i]? = some x → xs[j]? = some y →
      (∀ k z, i < k → k < j → xs[k]? = some z → sep z = false) → R x y := by
  rw [segments_iff_getElem]
  constructor
  · intro h i j x y hij hx hy hbetween
    by_cases hends : sep x = true ∨ sep y = true
    · exact hsep x y hends
    · rw [not_or, Bool.not_eq_true, Bool.not_eq_true] at hends
      refine h i j x y hij hx hy fun k z hik hkj hz => ?_
      rcases Nat.eq_or_lt_of_le hik with rfl | hik
      · rw [hx] at hz
        cases hz
        exact hends.1
      · rcases Nat.eq_or_lt_of_le hkj with rfl | hkj
        · rw [hy] at hz
          cases hz
          exact hends.2
        · exact hbetween k z hik hkj hz
  · intro h i j x y hij hx hy hnone
    exact h i j x y hij hx hy fun k z hik hkj => hnone k z (by omega) (by omega)

/-! ## Reorderings -/

theorem Segments.imp {S : α → α → Prop} (himp : ∀ x ∈ xs, ∀ y ∈ xs, R x y → S x y)
    (h : Segments sep R xs) : Segments sep S xs := by
  rw [segments_iff] at h ⊢
  intro pre seg post heq hseg
  refine (h pre seg post heq hseg).imp_of_mem fun hx hy => himp _ ?_ _ ?_
  · rw [heq]
    simp [hx]
  · rw [heq]
    simp [hy]

variable {ys : List α}

theorem Reorder.perm (h : Reorder (fun x => sep x = true) xs ys) : xs.Perm ys := by
  induction h with
  | last hp _ => exact hp
  | seg hp _ _ _ ih => exact hp.append (ih.cons _)

theorem Reorder.symm (h : Reorder (fun x => sep x = true) xs ys) :
    Reorder (fun x => sep x = true) ys xs := by
  induction h with
  | last hp hx => exact .last hp.symm fun y hy => hx y (hp.mem_iff.mpr hy)
  | seg hp hx hb _ ih => exact .seg hp.symm (fun y hy => hx y (hp.mem_iff.mpr hy)) hb ih

theorem Reorder.cons (hx : sep x = false) (h : Reorder (fun x => sep x = true) xs ys) :
    Reorder (fun x => sep x = true) (x :: xs) (x :: ys) := by
  cases h with
  | last hp hxs =>
      refine .last (hp.cons x) fun y hy => ?_
      rcases List.mem_cons.mp hy with rfl | hy
      · simp [hx]
      · exact hxs y hy
  | seg hp hxs hb h =>
      refine .seg (hp.cons x) (fun y hy => ?_) hb h
      rcases List.mem_cons.mp hy with rfl | hy
      · simp [hx]
      · exact hxs y hy

theorem Reorder.refl (xs : List α) : Reorder (fun x => sep x = true) xs xs := by
  induction xs with
  | nil => exact .last .nil (by simp)
  | cons x xs ih =>
      by_cases hx : sep x = true
      · exact .seg .nil (by simp) hx ih
      · exact ih.cons (by simpa using hx)

/-- **A reordering keeps** a symmetric relation within the segments. -/
theorem Segments.reorder (hsymm : ∀ x y, R x y → R y x)
    (hr : Reorder (fun x => sep x = true) xs ys) (h : Segments sep R xs) :
    Segments sep R ys := by
  have hpair : ∀ {xs ys : List α}, xs.Perm ys → (∀ x ∈ xs, ¬ sep x = true) →
      xs.Pairwise R → (∀ y ∈ ys, sep y = false) ∧ ys.Pairwise R := by
    intro xs ys hp hx hpair
    refine ⟨fun y hy => ?_, hp.pairwise hpair fun h => hsymm _ _ h⟩
    exact Bool.not_eq_true _ ▸ hx y (hp.mem_iff.mpr hy)
  induction hr with
  | @last xs ys hp hx =>
      rw [segments_iff] at h
      obtain ⟨hys, hpys⟩ := hpair hp hx (h [] xs [] (by simp) (by simpa using hx))
      have hwalk := (@segmentsFrom_append α sep R [] ys [] hys).mpr ⟨by simp, hpys, trivial⟩
      rwa [List.append_nil] at hwalk
  | @seg xs ys xs' ys' b hp hx hb _ ih =>
      obtain ⟨-, hpxs, hrest⟩ := (segmentsFrom_closed (by simpa using hx) hb).mp h
      obtain ⟨hys, hpys⟩ := hpair hp hx hpxs
      exact (segmentsFrom_closed hys hb).mpr ⟨by simp, hpys, ih hrest⟩

end Segments

section Runs

universe u

variable {Loc V : Type u} {ε : Type*} {ι : Type} {sep : ι → Bool} {xs ys : List ι}
  (op : ι → (Loc → V) → Except ε (Loc → V)) (R W : ι → Set Loc)

/-- **Independent within segments**: every reordering ends alike. -/
theorem runAll_segments (hr : Reorder (fun x => sep x = true) xs ys)
    (hfp : ∀ x ∈ xs, Footprint (op x) (R x) (W x))
    (hind : Segments sep (Independent R W) xs) (s s' : Loc → V) :
    runAll op ys s = .ok s' ↔ runAll op xs s = .ok s' := by
  have hpieces : ∀ {zs : List ι}, Segments sep (Independent R W) zs →
      ∀ pre seg post, zs = pre ++ seg ++ post → (∀ x ∈ seg, ¬ sep x = true) →
        seg.Pairwise (Independent R W) := by
    intro zs h pre seg post heq hseg
    exact segments_iff.mp h pre seg post heq (by simpa using hseg)
  constructor
  · intro h
    have hind' := hind.reorder (fun _ _ h => Disjoint2.symm h) hr
    exact runAll_reorder op R W hr.symm (fun y hy => hfp y (hr.perm.mem_iff.mpr hy))
      (hpieces hind') h
  · exact runAll_reorder op R W hr hfp (hpieces hind)

end Runs

end EclipseNpu.Lib

import Mathlib.Data.List.Basic
import Mathlib.Data.List.Nodup
import Mathlib.Logic.Function.Iterate

/-!
# Lib — Rounds

Requests served in rounds: a round takes the first request of every class and
leaves the others in their order (`later`). Every request is taken in one round
(`exists_round`), and the rounds are as many as the largest class has requests
(`rounds_eq_nil_iff`).
-/

namespace EclipseNpu.Lib

variable {A B K : Type*} [DecidableEq K]

/-- What a round leaves behind once the classes in `seen` have been served. -/
def later (key : A → K) : List K → List A → List A
  | _, [] => []
  | seen, x :: xs =>
      if key x ∈ seen then x :: later key seen xs else later key (key x :: seen) xs

/-- The requests left after `c` rounds. -/
def rounds (key : A → K) (c : Nat) (xs : List A) : List A := (later key [])^[c] xs

/-- The requests of one class. -/
def load (key : A → K) (xs : List A) (k : K) : Nat := xs.countP fun x => key x = k

/-- The largest load of the classes in `ks`. -/
def worstLoad (ks : List K) (key : A → K) (xs : List A) : Nat :=
  (ks.map (load key xs)).foldr max 0

/-! ## One round -/

/-- A round sees the classes only. -/
theorem later_map (key : B → K) (f : A → B) (seen : List K) (xs : List A) :
    later key seen (xs.map f) = (later (key ∘ f) seen xs).map f := by
  induction xs generalizing seen with
  | nil => rfl
  | cons x xs ih =>
      simp only [later, List.map_cons, Function.comp_apply]
      split
      · rw [ih, List.map_cons]
      · exact ih _

theorem later_sublist (key : A → K) (seen : List K) (xs : List A) :
    (later key seen xs).Sublist xs := by
  induction xs generalizing seen with
  | nil => exact List.Sublist.slnil
  | cons x xs ih =>
      simp only [later]
      split
      · exact (ih seen).cons_cons x
      · exact (ih _).cons x

/-- A round over something takes something. -/
theorem later_length_lt (key : A → K) (x : A) (xs : List A) :
    (later key [] (x :: xs)).length < (x :: xs).length := by
  rw [later, if_neg List.not_mem_nil]
  exact Nat.lt_succ_of_le (later_sublist key _ xs).length_le

/-- **One of every class is taken**, unless it had its turn. -/
theorem load_later (key : A → K) (seen : List K) (xs : List A) (k : K) :
    load key (later key seen xs) k
      = if k ∈ seen then load key xs k else load key xs k - 1 := by
  induction xs generalizing seen with
  | nil => simp [later, load]
  | cons x xs ih =>
      simp only [load] at ih
      by_cases hx : key x ∈ seen
      · simp only [later, if_pos hx, load, List.countP_cons, ih]
        by_cases hk : key x = k
        · subst hk
          simp [hx]
        · simp [hk]
      · simp only [later, if_neg hx, load, List.countP_cons, ih, List.mem_cons]
        by_cases hk : key x = k
        · subst hk
          simp [hx]
        · have hk' : k ≠ key x := fun h => hk h.symm
          simp [hk, hk']

/-- The test for the first request of a class, on positions. -/
theorem later_of_first (key : A → K) {grant : Nat → Bool} {xs : List A} {seen : List K}
    {m : Nat} (h : ∀ k (hk : k < xs.length), grant (m + k) = true
      ↔ key xs[k] ∉ seen ∧ key xs[k] ∉ (xs.take k).map key) :
    ((xs.zipIdx m).filter fun x => !grant x.2).map Prod.fst = later key seen xs := by
  induction xs generalizing seen m with
  | nil => rfl
  | cons x xs ih =>
      have hx := h 0 (Nat.zero_lt_succ _)
      simp only [Nat.add_zero, List.getElem_cons_zero, List.take_zero, List.map_nil,
        List.not_mem_nil, not_false_eq_true, and_true] at hx
      rw [List.zipIdx_cons, later]
      by_cases hseen : key x ∈ seen
      · have hg : grant m = false := by
          rw [← Bool.not_eq_true, hx]
          exact not_not_intro hseen
        rw [List.filter_cons_of_pos (by simp [hg]), List.map_cons, if_pos hseen]
        refine congrArg _ (ih fun k hk => ?_)
        have hk' := h (k + 1) (Nat.succ_lt_succ hk)
        rw [Nat.add_assoc, Nat.add_comm 1, hk']
        simp only [List.getElem_cons_succ, List.take_succ_cons, List.map_cons, List.mem_cons,
          not_or]
        constructor
        · intro hn
          exact ⟨hn.1, hn.2.2⟩
        · intro hn
          exact ⟨hn.1, fun he => hn.1 (he ▸ hseen), hn.2⟩
      · rw [List.filter_cons_of_neg (by simp [hx.mpr hseen]), if_neg hseen]
        refine ih fun k hk => ?_
        have hk' := h (k + 1) (Nat.succ_lt_succ hk)
        rw [Nat.add_assoc, Nat.add_comm 1, hk']
        simp only [List.getElem_cons_succ, List.take_succ_cons, List.map_cons, List.mem_cons,
          not_or]
        tauto

/-- What is left: the requests behind one of their class. -/
theorem mem_later_iff (key : A → K) {xs : List A} (hnd : xs.Nodup) {seen : List K} {k : Nat}
    (hk : k < xs.length) : xs[k] ∈ later key seen xs
      ↔ key xs[k] ∈ seen ∨ key xs[k] ∈ (xs.take k).map key := by
  induction xs generalizing seen k with
  | nil => cases hk
  | cons x xs ih =>
      obtain ⟨hx, hnd⟩ := List.nodup_cons.mp hnd
      cases k with
      | zero =>
          simp only [List.getElem_cons_zero, later, List.take_zero, List.map_nil,
            List.not_mem_nil, or_false]
          split
          · rename_i hseen
            simp [hseen]
          · rename_i hseen
            have hnot : x ∉ later key (key x :: seen) xs :=
              fun h => hx ((later_sublist key _ xs).subset h)
            simp [hseen, hnot]
      | succ k =>
          have hk' : k < xs.length := Nat.lt_of_succ_lt_succ hk
          have hne : xs[k] ≠ x := fun h => hx (h ▸ List.getElem_mem hk')
          simp only [List.getElem_cons_succ, later, List.take_succ_cons, List.map_cons,
            List.mem_cons]
          split
          · rename_i hseen
            rw [List.mem_cons, ih hnd hk']
            constructor
            · rintro (h | h | h)
              · exact absurd h hne
              · exact .inl h
              · exact .inr (.inr h)
            · rintro (h | h | h)
              · exact .inr (.inl h)
              · exact .inr (.inl (h ▸ hseen))
              · exact .inr (.inr h)
          · rw [ih hnd hk', List.mem_cons]
            tauto

/-! ## All rounds -/

section Rounds

variable {key : A → K} {xs : List A} {ks : List K}

theorem rounds_succ (c : Nat) : rounds key (c + 1) xs = rounds key c (later key [] xs) :=
  Function.iterate_succ_apply _ _ _

theorem rounds_succ' (c : Nat) : rounds key (c + 1) xs = later key [] (rounds key c xs) :=
  Function.iterate_succ_apply' _ _ _

theorem rounds_map (f : B → A) (ys : List B) (c : Nat) :
    rounds key c (ys.map f) = (rounds (key ∘ f) c ys).map f := by
  induction c with
  | zero => rfl
  | succ c ih => rw [rounds_succ', rounds_succ', ih, later_map]

theorem load_rounds (c : Nat) (k : K) : load key (rounds key c xs) k = load key xs k - c := by
  induction c with
  | zero => rfl
  | succ c ih =>
      rw [rounds_succ', load_later, if_neg List.not_mem_nil, ih]
      omega

theorem worstLoad_le_iff {m : Nat} :
    worstLoad ks key xs ≤ m ↔ ∀ k ∈ ks, load key xs k ≤ m := by
  unfold worstLoad
  induction ks with
  | nil => simp
  | cons k ks ih =>
      rw [List.map_cons, List.foldr_cons, Nat.max_le, ih, List.forall_mem_cons]

/-- **The rounds are as many as the largest class has requests.** -/
theorem rounds_eq_nil_iff (hks : ∀ k, k ∈ ks) (c : Nat) :
    rounds key c xs = [] ↔ worstLoad ks key xs ≤ c := by
  rw [worstLoad_le_iff]
  constructor
  · intro hnil k _
    have hload : load key (rounds key c xs) k = _ := load_rounds c k
    rw [hnil] at hload
    exact Nat.le_of_sub_eq_zero hload.symm
  · intro h
    refine List.eq_nil_iff_forall_not_mem.mpr fun x hx => ?_
    have hpos : 0 < load key (rounds key c xs) (key x) :=
      List.countP_pos_iff.mpr ⟨x, hx, by simp⟩
    have hle := h (key x) (hks _)
    rw [load_rounds] at hpos
    omega

/-- A sublist without repetitions is its members. -/
theorem filter_mem_sublist [DecidableEq A] {ys : List A} (hys : ys.Sublist xs)
    (hnd : xs.Nodup) : xs.filter (fun x => x ∈ ys) = ys := by
  induction hys with
  | slnil => rfl
  | @cons ys xs x hsub ih =>
      have hx : x ∉ ys := fun h => (List.nodup_cons.mp hnd).1 (hsub.subset h)
      rw [List.filter_cons_of_neg (by simpa using hx)]
      exact ih hnd.of_cons
  | @cons_cons ys xs x hsub ih =>
      have hx := (List.nodup_cons.mp hnd).1
      rw [List.filter_cons_of_pos (by simp)]
      refine congrArg _ (Eq.trans (List.filter_congr fun y hy => ?_) (ih hnd.of_cons))
      have hne : y ≠ x := fun h => hx (h ▸ hy)
      simp [hne]

/-- **Every request is taken in one round.** -/
theorem exists_round [DecidableEq A] (hnd : xs.Nodup) :
    ∃ round : A → Nat, ∀ c, rounds key c xs = xs.filter fun x => c ≤ round x := by
  generalize hn : xs.length = n
  induction n using Nat.strongRecOn generalizing xs with
  | ind n ih =>
      cases xs with
      | nil =>
          refine ⟨fun _ => 0, fun c => ?_⟩
          induction c with
          | zero => rfl
          | succ c ihc => rw [rounds_succ]; exact ihc
      | cons x xs =>
          have hsub := later_sublist key [] (x :: xs)
          obtain ⟨round, hround⟩ := ih _ (hn ▸ later_length_lt key x xs)
            (hsub.nodup hnd) rfl
          refine ⟨fun y => if y ∈ later key [] (x :: xs) then round y + 1 else 0, fun c => ?_⟩
          cases c with
          | zero => simp [rounds]
          | succ c =>
              rw [rounds_succ, hround c]
              conv_lhs => rw [← filter_mem_sublist hsub hnd]
              rw [List.filter_filter]
              refine List.filter_congr fun y _ => ?_
              by_cases hy : y ∈ later key [] (x :: xs)
              · simp [hy]
              · simp [hy]

end Rounds

end EclipseNpu.Lib

import EclipseNpu.Compiler.EmitSound
import EclipseNpu.Compiler.TensorSem

/-!
# Compiler — Divisions

The only way a compiled body can stop early: a DIV that meets a zero divisor. It
does exactly when a lowered division meets a zero on the tensors of the function, and
dropping copies changes nothing about it (`divisors_elided`).
-/

namespace EclipseNpu.Compiler

open EclipseNpu.Runtime

section Safe

variable (F : Type) [Fp32 F]

/-- No divisor of the operation is zero. -/
def Lowering.DivisorsNonzero (ddr : Value → Contents) : Lowering → Prop
  | .ewise .Div _ small out => ∀ i < out.type.numElements, Fp32.eq
      (Fp32.fp16ToFp32 ((ddr small).getD (smallPosition (small.type.extent 0)
        (small.type.extent 1) (i / out.type.extent 1) (i % out.type.extent 1)) 0) : F)
      Fp32.zero = false
  | _ => True

/-- **No lowered division meets a zero.** -/
def DivisionsSafe : List (Item Lowering) → (Value → Contents) → Prop
  | [], _ => True
  | .op l :: items, ddr =>
      l.DivisorsNonzero F ddr ∧ DivisionsSafe items ((Item.op l).meaning F ddr)
  | _ :: items, ddr => DivisionsSafe items ddr

end Safe

section Lists

variable {F : Type} [Fp32 F] {s : BodyState}

theorem divisorsNonzero_append (is js : List Inst) : DivisorsNonzero F (is ++ js) s
    ↔ DivisorsNonzero F is s ∧ DivisorsNonzero F js (run (machineOps F) is s) := by
  induction is generalizing s with
  | nil => exact ⟨fun h => ⟨trivial, h⟩, And.right⟩
  | cons i is ih =>
      rw [List.cons_append, DivisorsNonzero, DivisorsNonzero, ih, and_assoc, run_cons]

/-- Operations other than DIV. -/
theorem divisorsNonzero_of_no_div {is : List Inst}
    (h : ∀ i ∈ is, ∀ lhs rhs dst, i.op ≠ .ewise .Div lhs rhs dst) :
    DivisorsNonzero F is s := by
  induction is generalizing s with
  | nil => trivial
  | cons i is ih =>
      refine ⟨?_, ih fun j hj => h j (List.mem_cons_of_mem i hj)⟩
      have hi := h i List.mem_cons_self
      cases hop : i.op with
      | ewise kind lhs rhs dst =>
          rw [hop] at hi
          cases kind with
          | Div => exact absurd rfl (hi lhs rhs dst)
          | Add | Sub | Mul => trivial
      | _ => trivial

end Lists

section Elided

variable {F : Type} [Fp32 F] {items : List (Item Lowering)} {pairs : List (Value × Value)}
  {erased : List OpId} {q : Nat} {l : Lowering} {s t : BodyState}

/-- Replacing makes no DIV. -/
theorem no_div_elided {is : List Inst}
    (h : ∀ i ∈ is, ∀ lhs rhs dst, i.op ≠ .ewise .Div lhs rhs dst) :
    ∀ i ∈ is.filterMap (elideEdit items pairs erased), ∀ lhs rhs dst,
      i.op ≠ .ewise .Div lhs rhs dst := by
  intro i hi lhs rhs dst hop
  obtain ⟨j, hj, hedit⟩ := List.mem_filterMap.mp hi
  rw [elideEdit_eq] at hedit
  split_ifs at hedit
  cases hedit
  have hne := h j hj
  rw [replaceAll_eq] at hop
  cases hj' : j.op with
  | ewise kind a b c =>
      rw [hj'] at hop hne
      cases hop
      exact hne a b c rfl
  | _ =>
      rw [hj'] at hop
      cases hop

theorem LoweredInst.div {i : Inst} (hi : LoweredInst q l i) {lhs rhs dst : Value}
    (hop : i.op = .ewise .Div lhs rhs dst) :
    ∃ big small out, l = .ewise .Div big small out ∧ lhs = tileIn q 0 (sramTypeOf big) := by
  cases hi with
  | @compute pos accumulate hpos =>
      cases l with
      | ewise kind big small out =>
          cases hop
          exact ⟨big, small, out, rfl, rfl⟩
      | matmul | act | reduce => cases hop
  | castIn | castOut | expand | tile | sub | load | subLoad | sync | store | free => cases hop

/-- The compute operation is kept. -/
theorem elideEdit_compute (he : ErasedIds items erased) (h : BufferBody items) (op : Op) :
    elideEdit items pairs erased ⟨⟨q, .compute⟩, op⟩
      = some ⟨⟨q, .compute⟩, replaceAll pairs op⟩ := by
  have hload : (⟨q, .compute⟩ : OpId) ∉ forwardedIds items :=
    not_mem_forwardedIds h fun k heq => by cases heq
  have hstore : (⟨q, .compute⟩ : OpId) ∉ erased := by
    intro hmem
    obtain ⟨j, x, -, hid⟩ := (he _).mp hmem
    cases hid
  have hkept : Kept items erased ⟨q, .compute⟩ = true := decide_eq_true ⟨hload, hstore⟩
  rw [elideEdit_eq, if_pos hkept]

/-- **One item**: its DIV meets the divisors of the tensor. -/
theorem divisors_expand (hp : ForwardPairs items pairs) (he : ErasedIds items erased)
    (hsafe : SafeToElide items) (h : BufferBody items) (hl : items[q]? = some (.op l))
    (hres : Resident items q s) (hsim : Simulates items s t) :
    DivisorsNonzero F ((unrollBody (l.expand q)).filterMap (elideEdit items pairs erased)) t
      ↔ l.DivisorsNonzero F s.ddr := by
  have hlow : ∀ i ∈ unrollBody (l.expand q), LoweredInst q l i := fun i hi =>
    lowered_unrolled h hl hi
  by_cases hdiv : ∃ big small out, l = .ewise .Div big small out
  · obtain ⟨big, small, out, rfl⟩ := hdiv
    have hins : (Lowering.ewise .Div big small out).ins ≠ [] := by simp [Lowering.ins]
    obtain ⟨before, after, hunroll, hbefore, hafter, hload⟩ :=
      @unroll_compute (machineOps F) (.ewise .Div big small out) hins q
    rw [hunroll] at hlow ⊢
    have hnot₁ : ∀ i ∈ before, ∀ lhs rhs dst, i.op ≠ .ewise .Div lhs rhs dst := by
      intro i hi lhs rhs dst hop
      have hread := hbefore i hi
      rw [hop] at hread
      cases hread
    have hnot₂ : ∀ i ∈ after, ∀ lhs rhs dst, i.op ≠ .ewise .Div lhs rhs dst := by
      intro i hi lhs rhs dst hop
      obtain ⟨big', small', out', -, rfl⟩ :=
        (hlow i (List.mem_append_right _ (List.mem_cons_of_mem _ hi))).div hop
      have hread := hafter i hi
      rw [hop] at hread
      cases hread _ List.mem_cons_self
    obtain ⟨hsim₁, -⟩ : Simulates items (Compiler.run (machineOps F) before s) _ ∧ _ :=
      hsim.run hp he hsafe h fun i hi =>
        ⟨.op hl (hlow i (List.mem_append_left _ hi)), fun v hv => by
          rw [hbefore i hi] at hv
          cases hv⟩
    have hsmall : (Compiler.run (machineOps F)
          (before.filterMap (elideEdit items pairs erased)) t).sram
          (replaceUses pairs (tileIn q 1 (sramTypeOf small))) = s.ddr small := by
      rw [← hsim₁.sram _ (hp.tile h (v := tileIn q 1 (sramTypeOf small)) rfl).2,
        ← hres.compute hp h hl hins (fun i hi => hlow i (List.mem_append_left _ hi)) (hload s)
          (by simp [Lowering.compute, Op.readTiles]), hload s 1 small _ rfl]
      exact readView_buffer (h.source hl (by simp [Lowering.sources])) s.ddr _
    have htype := (hp.tile h (v := tileIn q 1 (sramTypeOf small)) rfl).1
    have hout := hp.outTile q (.ewise .Div big small out)
    rw [List.filterMap_append, List.filterMap_cons_some (elideEdit_compute he h _),
      divisorsNonzero_append, DivisorsNonzero]
    refine (and_iff_right (divisorsNonzero_of_no_div (no_div_elided hnot₁))).trans
      ((and_iff_left (divisorsNonzero_of_no_div (no_div_elided hnot₂))).trans ?_)
    dsimp only
    rw [replaceAll_eq]
    show (∀ i < (replaceUses pairs (tileOut q (sramTypeOf out))).type.numElements, _) ↔ _
    rw [show replaceUses pairs (tileOut q (sramTypeOf out)) = tileOut q (sramTypeOf out) from hout,
      hsmall, htype]
    exact Iff.rfl
  · rw [iff_true_right]
    · refine divisorsNonzero_of_no_div (no_div_elided fun i hi lhs rhs dst hop => hdiv ?_)
      obtain ⟨big, small, out, heq, -⟩ := (hlow i hi).div hop
      exact ⟨big, small, out, heq⟩
    · cases l with
      | ewise kind big small out =>
          cases kind with
          | Div => exact absurd ⟨big, small, out, rfl⟩ hdiv
          | Add | Sub | Mul => trivial
      | matmul | act | reduce => trivial

/-- **A body after the pass** divides by zero exactly when a lowered operation does. -/
theorem divisors_elided (hp : ForwardPairs items pairs) (he : ErasedIds items erased)
    (hsafe : SafeToElide items) (h : BufferBody items) :
    DivisorsNonzero F ((unrollBody (expandFrom 0 items)).filterMap
        (elideEdit items pairs erased)) s
      ↔ DivisionsSafe F items s.ddr := by
  have hrun : ∀ (rest : List (Item Lowering)) (q : Nat) (s t : BodyState),
      items.drop q = rest → Resident items q s → Simulates items s t →
      (DivisorsNonzero F ((unrollBody (expandFrom q rest)).filterMap
          (elideEdit items pairs erased)) t ↔ DivisionsSafe F rest s.ddr) := by
    intro rest
    induction rest with
    | nil => exact fun q s t _ _ _ => Iff.rfl
    | cons item rest ih =>
        intro q s t hrest hres hsim
        have hitem : items[q]? = some item := by
          rw [← List.head?_drop, hrest, List.head?_cons]
        have htail : items.drop (q + 1) = rest := by
          rw [← List.tail_drop, hrest, List.tail_cons]
        rw [expandFrom, unrollBody_append, List.filterMap_append, divisorsNonzero_append]
        have hddr := run_item (F := F) (p := q) (s := s)
          (h item (List.mem_of_getElem? hitem))
        cases item with
        | op l =>
            obtain ⟨hsim', -⟩ : Simulates items (Compiler.run (machineOps F)
                (unrollBody (l.expand q)) s) _ ∧ _ := hsim.expand hp he hsafe h hitem hres
            have hnext := ih (q + 1) _ _ htail (hres.op h hitem) hsim'
            rw [show (Compiler.run (machineOps F) (unrollBody (l.expand q)) s).ddr
              = (Item.op l).meaning F s.ddr from hddr] at hnext
            exact and_congr (divisors_expand hp he hsafe h hitem hres hsim) hnext
        | define v =>
            obtain ⟨hsim', -⟩ : Simulates items (Compiler.run (machineOps F)
                [⟨⟨q, .user 0⟩, .define v⟩] s) _ ∧ _ := hsim.run hp he hsafe h fun i hi => by
              obtain rfl := List.mem_singleton.mp hi
              exact ⟨.define hitem, by simp [Op.readTiles]⟩
            have hnext := ih (q + 1) _ _ htail (hres.skip hitem (by simp)) hsim'
            refine (and_iff_right ?_).trans hnext
            refine divisorsNonzero_of_no_div (no_div_elided fun i hi lhs rhs dst hop => ?_)
            obtain rfl := List.mem_singleton.mp hi
            cases hop
        | ret vs =>
            obtain ⟨hsim', -⟩ : Simulates items (Compiler.run (machineOps F)
                [⟨⟨q, .user 0⟩, .ret vs⟩] s) _ ∧ _ := hsim.run hp he hsafe h fun i hi => by
              obtain rfl := List.mem_singleton.mp hi
              exact ⟨.ret hitem, by simp [Op.readTiles]⟩
            have hnext := ih (q + 1) _ _ htail (hres.skip hitem (by simp)) hsim'
            refine (and_iff_right ?_).trans hnext
            refine divisorsNonzero_of_no_div (no_div_elided fun i hi lhs rhs dst hop => ?_)
            obtain rfl := List.mem_singleton.mp hi
            cases hop
  refine hrun items 0 s s rfl ?_ ⟨fun _ _ => rfl, fun _ _ => rfl⟩
  intro x j l _ _ hj _
  cases hj

end Elided

end EclipseNpu.Compiler

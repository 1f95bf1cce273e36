import EclipseNpu.Compiler.DescriptorRegion
import EclipseNpu.Compiler.MachineOps
import EclipseNpu.Lib.Simulation

/-!
# Compiler — EmitSound

`eclipse-to-easm` preserves meaning: the emitted lines, run by the simulator, take
a memory that holds a body state to one that holds what the body leaves. One step
lemma per operation (`Op.Lawful.simulated`), from it the run of a body, and from
that `eclipse-run` with its descriptors in the command queue.
-/

namespace EclipseNpu.Compiler

open EclipseNpu.Lib EclipseNpu.Runtime

/-- The operands lie in places of their own, as the executor needs them. -/
def Op.Distinct : Op → Prop
  | .matmul lhs rhs dst _ _ _ => lhs ≠ rhs ∧ lhs ≠ dst ∧ rhs ≠ dst
  | .ewise _ _ rhs dst => rhs ≠ dst
  | .act _ src dst => src ≠ dst
  | _ => True

/-- **An operation the emitter and the executor handle**: a transfer between a whole
buffer or an aligned block and a tile, or a computation the dialect's verifier
accepts on tiles of their own. -/
inductive Op.Lawful (layout : Layout) : Op → Prop
  | silent {op : Op} (h : op.isSilent = true) : Lawful layout op
  | ret {vs : List Value} : Lawful layout (.ret vs)
  | loadWhole {id : OpId} {x t : Value} {rows cols : Nat} (hsource : layout.isSource x = true)
      (hx : F16Shape x rows cols) (ht : F16Shape t rows cols) (hrows : 0 < rows)
      (hcols : 0 < cols) (halign : 16 ∣ allocAlignment t) :
      Lawful layout (.dmaLoad (toDDR id x) t)
  | loadBlock {id id' : OpId} {x t : Value} {rows cols r c m n : Nat}
      (hsource : layout.isSource x = true) (hx : F16Shape x rows cols) (ht : F16Shape t m n)
      (hr : r + m ≤ rows) (hc : c + n ≤ cols) (hm : 0 < m) (hn : 0 < n)
      (halign : 16 ∣ allocAlignment t) (hblock : (r * cols + c) % 8 = 0) :
      Lawful layout (.dmaLoad (.subView id (toDDR id' x) [.const r, .const c] [m, n] [1, 1]) t)
  | store {id : OpId} {x t : Value} {rows cols : Nat} (hx : F16Shape x rows cols)
      (ht : F16Shape t rows cols) (hrows : 0 < rows) (hcols : 0 < cols)
      (halign : 16 ∣ allocAlignment t) : Lawful layout (.dmaStore t (toDDR id x))
  | compute {op : Op} (hv : op.accepted = true)
      (hpos : ∀ v ∈ op.operands, 0 < v.type.words) (hne : op.Distinct) : Lawful layout op

section Step

variable {F : Type} [Fp32 F] {layout : Layout} {d : UInt32} {op : Op} {e : Emitted}
  {s : BodyState}

theorem runAll_single (x : EasmInsn) (u : CModel) :
    runAll (runInsn F) [x] u = runInsn F x u := by
  rw [runAll]
  cases runInsn F x u <;> rfl

variable (F) in
/-- **The lines take a memory that holds `s` to one that holds `s'`.** -/
abbrev LinesSimulate (layout : Layout) (xs : List EasmInsn) (p : Prop) (s s' : BodyState) :
    Prop :=
  ForwardSim (Holds layout) (runAll (runInsn F) xs) p s s'

/-- One line that always finishes. -/
theorem linesSimulate_line {x : EasmInsn} {s' : BodyState}
    (h : ∀ u, Holds layout s u → ∃ u', runInsn F x u = .ok u' ∧ Holds layout s' u') :
    LinesSimulate F layout [x] True s s' := by
  refine ForwardSim.total fun u hu => ?_
  obtain ⟨u', hu', hheld⟩ := h u hu
  exact ⟨u', (runAll_single x u).trans hu', hheld⟩

theorem reduce_distinct {kind : ReduceKind} {src dst : Value} {idx : Option Value}
    (hv : (Op.reduce kind src dst idx).accepted = true) :
    src ≠ dst ∧ ∀ i, kind = .ARGMAX → idx = some i → src ≠ i ∧ dst ≠ i := by
  rw [Op.accepted, Bool.and_eq_true, decide_eq_true_eq] at hv
  replace hv : verifyReduce kind src dst idx = .ok () := hv.2
  unfold verifyReduce at hv
  split_ifs at hv with _ _ hne
  · obtain ⟨_, -, hv⟩ := bind_ok hv
    cases hv
  obtain ⟨_, hkind, -⟩ := bind_ok hv
  refine ⟨hne, fun i hk hi => ?_⟩
  subst hk
  subst hi
  rw [verifyReduceKind, verifyReduceIdx] at hkind
  split_ifs at hkind with hshape halias
  rw [not_or] at halias
  exact ⟨Ne.symm halias.1, Ne.symm halias.2⟩

/-- **One step**: the lines of an operation simulate it; a DIV finishes exactly when
no divisor is zero. -/
theorem Op.Lawful.simulated (hp : layout.Placed) (h : op.Lawful layout)
    (he : emitOp layout d op = some e) (s : BodyState) :
    LinesSimulate F layout e.1 (op.DivisorsNonzero F s) s (op.step (machineOps F) s) := by
  cases h with
  | silent h =>
      cases op with
      | define | dealloc =>
          cases he
          exact ForwardSim.refl
      | sync =>
          cases he
          exact linesSimulate_line fun u hu => ⟨u, rfl, hu⟩
      | _ => cases h
  | ret =>
      cases he
      exact ForwardSim.refl
  | loadWhole hsource hx ht hrows hcols halign =>
      obtain ⟨a, b, ha, hb, rfl⟩ := emitOp_loadWhole hsource hx he
      exact linesSimulate_line fun u hu =>
        hu.loadWhole hp hsource ht hx hrows hcols halign ha hb
  | loadBlock hsource hx ht hr hc hm hn halign hblock =>
      obtain ⟨a, b, ha, hb, rfl⟩ := emitOp_loadBlock hsource hx he
      exact linesSimulate_line fun u hu =>
        hu.loadBlock hp hsource ht hx hr hc hm hn halign hblock ha hb
  | store hx ht hrows hcols halign =>
      obtain ⟨a, b, ha, hb, halloc, rfl⟩ := emitOp_store hx he
      exact linesSimulate_line fun u hu => hu.store hp halloc ht hx hrows hcols halign ha hb
  | compute hv hpos hne =>
      cases op with
      | matmul lhs rhs dst accumulate transA transB =>
          obtain ⟨M, K, N, hs⟩ := matmulShapes_of_accepted hv
          obtain ⟨c, a, b, hc, ha, hb, rfl⟩ := emitMatmulOp_desc hs he
          obtain ⟨hlw, hrw, -⟩ := hs.words
          have hMK := hpos lhs (by simp [Op.operands])
          have hKN := hpos rhs (by simp [Op.operands])
          rw [hlw] at hMK
          rw [hrw] at hKN
          obtain ⟨hlr, hld, hrd⟩ := hne
          exact linesSimulate_line fun u hu => hu.matmul hp hs
            (Nat.pos_of_mul_pos_right hMK) (Nat.pos_of_mul_pos_left hMK)
            (Nat.pos_of_mul_pos_left hKN) hlr hld hrd ha hb hc
      | ewise kind lhs rhs dst =>
          obtain ⟨hd, hl, hr, hok⟩ := ewiseShapes_of_accepted hv
          obtain ⟨c, a, b, hc, ha, hb, rfl⟩ := emitEwise_desc hd hr he
          have hdw := hpos dst (by simp [Op.operands])
          have hrw := hpos rhs (by simp [Op.operands])
          rw [hd.words] at hdw
          rw [hr.words] at hrw
          intro u hu
          simp only [emitLine, runAll_single]
          exact hu.ewise hp hd hl hr hok (Nat.pos_of_mul_pos_right hdw)
            (Nat.pos_of_mul_pos_left hdw) hrw hne ha hb hc
      | act kind src dst =>
          obtain ⟨hs, hd⟩ := actShapes_of_accepted hv
          obtain ⟨b, hb, he⟩ := Option.bind_eq_some_iff.mp he
          obtain ⟨a, ha, he⟩ := Option.bind_eq_some_iff.mp he
          cases he
          have hsw := hpos src (by simp [Op.operands])
          rw [hs.words] at hsw
          exact linesSimulate_line fun u hu => hu.act hp hs hd hsw hne ha hb
      | reduce kind src dst idx =>
          obtain ⟨hs, hd, hrows, hcols, hkind⟩ := reduceShapes_of_accepted hv
          obtain ⟨hsd, hidx⟩ := reduce_distinct hv
          obtain ⟨b, a, i, hb, ha, hi, rfl⟩ := emitReduceOp_desc hs he
          rcases hkind with ⟨hkind, rfl⟩ | ⟨v, rfl, rfl, hsize⟩
          · cases hi
            exact linesSimulate_line fun u hu => hu.reduce hp hs hd (by omega) (by omega)
              hsd hkind ha hb
          · obtain ⟨hsi, hdi⟩ := hidx v rfl rfl
            exact linesSimulate_line fun u hu => hu.argmax hp hs hd hsize (by omega)
              (by omega) hsd hsi hdi ha hb hi
      | _ => cases hv

end Step

/-! ## Bodies -/

section Body

variable {F : Type} [Fp32 F] {layout : Layout} {insts : List Inst} {d : UInt32} {e : Emitted}
  {s : BodyState}

variable (F) in
/-- No DIV of the run finds a divisor that is zero. -/
def DivisorsNonzero : List Inst → BodyState → Prop
  | [], _ => True
  | i :: is, s => i.op.DivisorsNonzero F s ∧ DivisorsNonzero is (i.op.step (machineOps F) s)

theorem emitInsts_cons {i : Inst} {is : List Inst} (h : emitInsts layout d (i :: is) = some e) :
    ∃ e₁ e₂, emitOp layout d i.op = some e₁ ∧ emitInsts layout e₁.2 is = some e₂
      ∧ e = (e₁.1 ++ e₂.1, e₂.2) := by
  obtain ⟨e₁, h₁, h⟩ := Option.bind_eq_some_iff.mp h
  obtain ⟨e₂, h₂, h⟩ := Option.bind_eq_some_iff.mp h
  cases h
  exact ⟨e₁, e₂, h₁, h₂, rfl⟩

/-- **The lines of a body simulate it.** -/
theorem emitInsts_simulated (hp : layout.Placed) (hlaw : ∀ i ∈ insts, i.op.Lawful layout)
    (he : emitInsts layout d insts = some e) :
    LinesSimulate F layout e.1 (DivisorsNonzero F insts s) s (run (machineOps F) insts s) := by
  induction insts generalizing d e s with
  | nil =>
      cases he
      exact ForwardSim.refl
  | cons i is ih =>
      obtain ⟨e₁, e₂, h₁, h₂, rfl⟩ := emitInsts_cons he
      have hstep := @Op.Lawful.simulated F _ layout d i.op e₁ hp
        (hlaw i List.mem_cons_self) h₁ s
      have hrest := ih (s := i.op.step (machineOps F) s)
        (fun j hj => hlaw j (List.mem_cons_of_mem i hj)) h₂
      refine (hstep.seq hrest).of_eq fun u hu => ⟨u, hu, ?_⟩
      exact runAll_append _ e₁.1 e₂.1 u

/-- A DMA_STORE line comes from a store. -/
theorem emitOp_dmaStore {op : Op} {d' : UInt32} {p : DMAParam}
    (he : emitOp layout d op = some e) (hx : .dmaStore d' p ∈ e.1) :
    ∃ src dst, op = .dmaStore src dst := by
  have hmem := List.mem_map_of_mem (f := EasmInsn.opcode) hx
  rw [(emitOp_step he).opcode] at hmem
  split_ifs at hmem
  · cases hmem
  · cases op with
    | dmaStore src dst => exact ⟨src, dst, rfl⟩
    | ewise kind => cases kind <;> cases List.mem_singleton.mp hmem
    | define | dealloc | ret => cases hmem
    | _ => cases List.mem_singleton.mp hmem

/-- A store writes past the command queue. -/
theorem Op.Lawful.writes (hp : layout.Placed) {op : Op} (h : op.Lawful layout)
    (he : emitOp layout d op = some e) {x : EasmInsn} (hx : x ∈ e.1) {y : Nat}
    (hy : Loc.ddr y ∈ x.writes) : ddrStart.toNat ≤ y := by
  by_cases hstore : ∀ d p, x ≠ .dmaStore d p
  · exact absurd hy (not_writes_ddr hstore y)
  · push Not at hstore
    obtain ⟨d', p, rfl⟩ := hstore
    obtain ⟨src, dst, rfl⟩ := emitOp_dmaStore he hx
    cases h with
    | silent h => cases h
    | compute hv => cases hv
    | @store id x t rows cols hsx hst hrows hcols halign =>
        obtain ⟨a, b, ha, hb, -, rfl⟩ := emitOp_store hsx he
        cases List.mem_singleton.mp hx
        have hwhole := hp.whole ha hb hst hsx hrows hcols halign
        obtain ⟨-, hlo, -⟩ := hp.ddrIn _ b hb (by
          rw [hsx.words]
          exact Nat.mul_pos hrows hcols)
        have hin := writes_whole hwhole hy
        omega

theorem emitInsts_writes (hp : layout.Placed) (hlaw : ∀ i ∈ insts, i.op.Lawful layout)
    (he : emitInsts layout d insts = some e) {x : EasmInsn} (hx : x ∈ e.1) {y : Nat}
    (hy : Loc.ddr y ∈ x.writes) : ddrStart.toNat ≤ y := by
  induction insts generalizing d e with
  | nil =>
      cases he
      cases hx
  | cons i is ih =>
      obtain ⟨e₁, e₂, h₁, h₂, rfl⟩ := emitInsts_cons he
      rcases List.mem_append.mp hx with hx | hx
      · exact (hlaw i List.mem_cons_self).writes hp h₁ hx hy
      · exact ih (fun j hj => hlaw j (List.mem_cons_of_mem i hj)) h₂ hx

end Body

/-! ## Modules -/

section Module

variable {F : Type} [Fp32 F] {layout : Layout} {module : Module} {out : List EasmInsn}

/-- **eclipse-run on the emitted stream**: the descriptors fit the command queue
region, so the buffers are what they were when the queue starts. -/
theorem eclipseToEasm_simulates (hp : layout.Placed)
    (hlaw : ∀ i ∈ unrollModule module, i.op.Lawful layout)
    (hemit : eclipseToEasm layout module = some out)
    (hqueue : descriptorCount layout module ≤ 1020) (s : BodyState) :
    ForwardSim (Holds layout) (runEasm F out) (DivisorsNonzero F (unrollModule module) s) s
      (run (machineOps F) (unrollModule module) s) := by
  obtain ⟨e, he, rfl⟩ := Option.map_eq_some_iff.mp hemit
  have hstart : DESC_STARTADDR.toNat = 0x40000100 := rfl
  have hddr : ddrStart.toNat = 0x40010000 := rfl
  have hcount := emitInsts_described he
  change (described e.1).length = descriptorCount layout module at hcount
  refine (emitInsts_simulated hp hlaw he).of_eq fun u hu => ?_
  obtain ⟨v, hsame, hrun⟩ := runEasm_emitted (F := F) he (by rw [hstart]; decide)
    (by rw [hstart, hcount, ddrEnd_eq]; omega)
    (fun x hx y hy => by
      have := emitInsts_writes hp hlaw he hx hy
      rw [hstart, hcount]
      omega) u
  refine ⟨v, hu.congr hp (fun y => hsame _ fun y' hy' => ?_) (fun y hy => hsame _ ?_), hrun⟩
  · cases hy'
  · intro y' hy'
    cases hy'
    rw [hstart, hcount]
    omega

end Module

end EclipseNpu.Compiler

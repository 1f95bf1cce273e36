import EclipseNpu.Compiler.EasmFile
import EclipseNpu.Compiler.InputFiles
import EclipseNpu.Compiler.SyncPlacement
import EclipseNpu.Runtime.DmaWords
import EclipseNpu.Runtime.EclipseRun

/-!
# Compiler — EndToEnd

From the lowered operations of a function and its input files to the file `eclipse-run`
writes: the compiled `.easm` text, run on the inputs, ends with the tensor the operations
mean (`eclipseRun_correct`).
-/

namespace EclipseNpu.Compiler

open EclipseNpu.Lib EclipseNpu.Runtime

/-! ## The last store -/

section LastStore

variable {items : List (Item Lowering)} {pairs : List (Value × Value)} {erased : List OpId}
  {i p : Nat} {l : Lowering} {layout : Layout} {xs ys : List EasmInsn} {is : List Inst}
  {o : UInt32 × UInt32}

theorem lastOutput_append : lastOutput (xs ++ ys) o = lastOutput ys (lastOutput xs o) :=
  List.foldl_append

/-- Lines of other operations leave the output to an earlier store. -/
theorem lastOutput_of_no_store (he : EmitsLines layout is xs)
    (h : ∀ i ∈ is, i.op.isDmaStore = false) : lastOutput xs o = o := by
  induction is generalizing xs o with
  | nil =>
      rw [he.nil]
      rfl
  | cons i is ih =>
      obtain ⟨d, e, ys, hop, hys, rfl⟩ := he.cons
      rw [lastOutput_append]
      refine (ih hys fun j hj => h j (List.mem_cons_of_mem i hj)).trans ?_
      have hno := h i List.mem_cons_self
      cases emitOp_step hop with
      | line x _ _ hline _ =>
          cases x with
          | dmaStore d' p =>
              obtain ⟨src, dst, heq⟩ := emitOp_dmaStore hop (List.mem_singleton_self _)
              rw [heq] at hno
              cases hno
          | _ => rfl
      | sync | dropped | silent => rfl

theorem expandFrom_append {items' : List (Item Lowering)} :
    expandFrom p (items ++ items')
      = expandFrom p items ++ expandFrom (p + items.length) items' := by
  induction items generalizing p with
  | nil => rfl
  | cons item items ih =>
      rw [List.cons_append, expandFrom, ih, expandFrom, List.append_assoc, List.length_cons,
        Nat.add_right_comm, Nat.add_assoc]

/-- Behind the last operation nothing is stored. -/
theorem split_lastOp (hlast : lastOp items items.length = some (i, l)) : ∃ before after,
    unrollBody (expandFrom 0 items) = before ++ storeInst i l :: after
      ∧ ∀ j ∈ after, j.op.isDmaStore = false := by
  obtain ⟨hl, hi, hbetween⟩ := lastOp_some hlast
  obtain ⟨pre, post, hstore, hpost⟩ := unroll_store i l
  have hsplit : items = items.take i ++ .op l :: items.drop (i + 1) := by
    rw [← List.getElem?_eq_some_iff.mp hl |>.2, List.cons_getElem_drop_succ,
      List.take_append_drop]
  have hlen : (items.take i).length = i := by
    rw [List.length_take]
    omega
  refine ⟨unrollBody (expandFrom 0 (items.take i)) ++ pre,
    post ++ unrollBody (expandFrom (i + 1) (items.drop (i + 1))), ?_, fun j hj => ?_⟩
  · conv_lhs => rw [hsplit]
    rw [expandFrom_append, unrollBody_append, hlen, Nat.zero_add, expandFrom,
      unrollBody_append, show (Item.op l).expand i = l.expand i from rfl, hstore]
    simp only [List.append_assoc, List.cons_append]
  · rcases List.mem_append.mp hj with hj | hj
    · have hsilent := hpost j hj
      cases hop : j.op with
      | dmaStore =>
          rw [hop] at hsilent
          cases hsilent
      | _ => rfl
    · obtain ⟨k, item, hitem, hj⟩ := mem_expandFrom.mp hj
      rw [List.getElem?_drop] at hitem
      have hk := (List.getElem?_eq_some_iff.mp hitem).1
      cases item with
      | define | ret =>
          obtain rfl := List.mem_singleton.mp hj
          rfl
      | op m => exact absurd hitem (hbetween _ m (by omega) hk)

theorem isDmaStore_replaceAll (op : Op) : (replaceAll pairs op).isDmaStore
    = op.isDmaStore := by
  rw [replaceAll_eq]
  cases op <;> rfl

variable {canonicalize : List Stmt → List Stmt} {args : List (Option MemRefType)}
  {src : List (Item LinalgOp)} {out : List EasmInsn}

/-- **The output of a compiled stream** is the destination of its last operation. -/
theorem Compiles.output (h : Compiles canonicalize args src items layout out)
    (hlast : lastOp items items.length = some (i, l))
    (hkept : ¬ ElidedStore items i (l.target i)) :
    ∃ a rows cols, F16Shape (l.target i) rows cols ∧ 0 < rows ∧ 0 < cols
      ∧ ddrBaseAddr layout (l.target i) = some a
      ∧ lastOutput out (0, 0) = (a, UInt32.ofNat rows * UInt32.ofNat cols * DTYPE_SIZE) := by
  obtain ⟨hl, -, -⟩ := lastOp_some hlast
  obtain ⟨-, hemit⟩ := eclipseCompile_eq h.converted h.compiled
  obtain ⟨pairs, erased, hp, he, hedit⟩ := elideCopies_eq h.buffers
  have hout := compiled_lines h.buffers hp he hedit h.canonical.kept hemit
  obtain ⟨before, after, hsplit, hafter⟩ := split_lastOp hlast
  have hregular := converted_regular h.converted h.compilable (List.mem_of_getElem? hl)
  obtain ⟨rows, cols, hshape, hrows, hcols⟩ :=
    target_shape (q := i) (h.buffers.op hl).1 hregular
  rw [hsplit, List.filterMap_append, List.filterMap_cons_some
    (edit_store_kept hp he h.buffers hl hkept), effects_append] at hout
  obtain ⟨xs, ys, -, hys, rfl⟩ := hout.append
  rw [effects, List.filter_cons_of_pos rfl] at hys
  obtain ⟨d, e, zs, hop, hzs, rfl⟩ := hys.cons
  obtain ⟨a, b, -, hb, -, rfl⟩ := emitOp_store hshape hop
  refine ⟨b, rows, cols, hshape, hrows, hcols, hb, ?_⟩
  rw [lastOutput_append, lastOutput_append]
  refine lastOutput_of_no_store hzs fun j hj => ?_
  obtain ⟨k, hk, hedit⟩ := List.mem_filterMap.mp (mem_effects.mp hj).1
  rw [elideEdit_eq] at hedit
  split_ifs at hedit
  cases hedit
  exact (isDmaStore_replaceAll k.op).trans (hafter k hk)

end LastStore

/-! ## Files -/

/-- A tensor as a raw f16 file. -/
def rawFile (c : Contents) : List UInt8 := c.flatMap u16Bytes

/-- Bytes of words. -/
theorem rawFile_ddr (s : CModel) (a n : Nat) :
    (List.range (n * 2)).map (fun k => s.ddrByte (a + k)) = rawFile (wordsOf n (ddrElem s a)) := by
  induction n with
  | zero => rfl
  | succ n ih =>
      rw [Nat.succ_mul, List.range_succ, List.range_succ, List.map_append, List.map_append, ih,
        wordsOf, wordsOf, List.range_succ, List.map_append, rawFile, rawFile,
        List.flatMap_append, List.append_assoc]
      congr 1
      simp only [List.map_singleton, List.flatMap_singleton, ddrElem, u16Bytes_loadU16]
      rfl

section Main

variable {F : Type} [Fp32 F] {canonicalize : List Stmt → List Stmt}
  {args : List (Option MemRefType)} {src : List (Item LinalgOp)} {items : List (Item Lowering)}
  {layout : Layout} {out : List EasmInsn} {i : Nat} {l : Lowering} {files : List (List UInt8)}

/-- What is written for a buffer. -/
theorem readOutput_eq (hp : layout.Placed) {v : Value} {a : UInt32} {rows cols : Nat}
    (hshape : F16Shape v rows cols) (hrows : 0 < rows) (hcols : 0 < cols)
    (hv : ddrBaseAddr layout v = some a) (s : CModel) :
    readOutput a (UInt32.ofNat rows * UInt32.ofNat cols * DTYPE_SIZE) s
      = .ok (some (rawFile (layout.tensor s v))) := by
  have hwords := hshape.words_pos hrows hcols
  obtain ⟨⟨hlo, hhi⟩, -, -⟩ := hp.ddrIn v a hv hwords
  rw [hshape.words] at hwords hhi
  rw [ddrEnd_eq] at hhi
  have hbytes : (UInt32.ofNat rows * UInt32.ofNat cols * DTYPE_SIZE).toNat = rows * cols * 2 := by
    rw [← UInt32.ofNat_mul, UInt32.toNat_mul, UInt32.toNat_ofNat', DTYPE_SIZE_toNat]
    omega
  have hne : UInt32.ofNat rows * UInt32.ofNat cols * DTYPE_SIZE ≠ 0 := by
    intro hzero
    rw [hzero] at hbytes
    have : (0 : UInt32).toNat = 0 := rfl
    omega
  have haddr : CModel.ddr a = .ok a.toNat :=
    ddr_ok_iff.mpr ⟨rfl, hlo, by rw [ddrEnd_eq]; omega⟩
  have hspan : ddrSpan a.toNat (rows * cols * 2) = .ok () :=
    ddrSpan_ok_iff.mpr (.inr (by rw [ddrEnd_eq]; omega))
  rw [readOutput, if_neg hne, haddr, ok_bind, hbytes, hspan, ok_bind, rawFile_ddr]
  show Except.ok (some _) = _
  rw [Layout.tensor, hshape.words]
  congr 3
  exact wordsOf_congr fun i _ => (Layout.contents_eq hv s i).symm

/-- **A compiled function on its input files.** `eclipse-run` on the emitted text
finishes exactly when no lowered division meets a zero, and then writes the tensor the
lowered operations mean, when that is what the last of them computes and the function
returns. The cycles it prints depend on the stream only. -/
theorem eclipseRun_correct (h : Compiles canonicalize args src items layout out)
    (hlast : lastOp items items.length = some (i, l)) {vs : List Value}
    (hret : Item.ret vs ∈ items) (hv : l.target i ∈ vs) (hne : files ≠ [])
    (hfiles : files.map List.length
      = (funcArgs 0 0 args).map fun v => v.type.sizeInBytes) :
    ∃ text, eclipseCompileFile canonicalize args src = some (layout, text)
      ∧ ((∃ r, eclipseRun F text files = .ok r)
        ↔ DivisionsSafe F items (inputTensor args files))
      ∧ ∀ r, eclipseRun F text files = .ok r →
        r = ⟨(out.map EasmInsn.cycles).sum,
          some (rawFile (meaning F items (inputTensor args files) (l.target i)))⟩ := by
  obtain ⟨text, hfile, hdecode⟩ := h.file
  obtain ⟨halloc, -⟩ := eclipseCompile_eq h.converted h.compiled
  obtain ⟨u, hu, htensor⟩ := inputs_read halloc h.fits.ddr hfiles
  have hinput : layout.tensor u = inputTensor args files := funext htensor
  have hnot := returned_not_elided hret hv
  obtain ⟨a, rows, cols, hshape, hrows, hcols, haddr, hout⟩ :=
    h.output hlast fun hes => hnot ⟨i, hes⟩
  obtain ⟨hfin, hmeans⟩ := @Compiles.run F _ canonicalize args src items layout out h u
  rw [hinput] at hfin
  have hrun := eclipseRun_eq (F := F) hne hu hdecode h.slots.inside h.slots.apart h.storesAvoid
  rw [hout] at hrun
  refine ⟨text, hfile, ?_⟩
  cases hcase : runEasm F out u with
  | error e =>
      rw [hcase] at hrun hfin
      rw [hrun, ← hfin]
      refine ⟨iff_of_false ?_ ?_, fun r hr => ?_⟩
      · rintro ⟨r, hr⟩
        cases hr
      · rintro ⟨u', hu'⟩
        cases hu'
      · cases hr
  | ok u' =>
      obtain ⟨t, ht, hmeaning⟩ := hmeans u' hcase
      have hlen := @length_meaning F _ items (layout.tensor u) h.buffers
        (fun w => length_wordsOf _ _) (l.target i)
      rw [← hmeaning _ hnot] at hlen
      have hread := readOutput_eq h.placed hshape hrows hcols haddr u'
      rw [ht.tensor haddr hlen, hmeaning _ hnot, hinput] at hread
      rw [hcase] at hrun hfin
      have hresult : eclipseRun F text files = .ok ⟨(out.map EasmInsn.cycles).sum,
          some (rawFile (meaning F items (inputTensor args files) (l.target i)))⟩ := by
        rw [hrun]
        show ((readOutput a _ u').mapError RunError.fault >>= _) = _
        rw [hread]
        rfl
      rw [hresult, ← hfin]
      refine ⟨iff_of_true ⟨_, rfl⟩ ⟨u', rfl⟩, fun r hr => ?_⟩
      cases hr
      rfl

end Main

theorem eclipseRun_correct_expChain : ∃ layout out text,
    eclipseCompileFile dropTwice [some (f16Type 1 16)] expChainSource = some (layout, text)
      ∧ @eclipseRun Int Fp32.integers text [List.replicate 32 0]
        = .ok ⟨(List.map EasmInsn.cycles out).sum,
          some (rawFile (@meaning Int Fp32.integers expChain
            (inputTensor [some (f16Type 1 16)] [List.replicate 32 0]) (chainAlloc 2 1 16)))⟩ := by
  obtain ⟨layout, out, h⟩ := compiles_expChain
  have hret : Item.ret [chainAlloc 2 1 16] ∈ expChain := by simp [expChain]
  obtain ⟨text, hfile, hfin, hresult⟩ := @eclipseRun_correct Int Fp32.integers dropTwice _
    expChainSource expChain layout out 3 _ [List.replicate 32 0] h rfl [chainAlloc 2 1 16] hret
    (List.mem_singleton_self _) (List.cons_ne_nil _ _) rfl
  obtain ⟨r, hr⟩ := hfin.mpr ⟨trivial, trivial, trivial⟩
  refine ⟨layout, out, text, hfile, ?_⟩
  rw [hr, hresult r hr]
  rfl

end EclipseNpu.Compiler

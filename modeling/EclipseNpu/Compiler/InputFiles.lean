import EclipseNpu.Compiler.Pipeline

/-!
# Compiler — InputFiles

What a compiled function finds in its buffers when `eclipse-run` has read the input
files: argument `k` is file `k`, everything else is zero (`inputs_read`).
-/

namespace EclipseNpu.Compiler

open EclipseNpu.Lib EclipseNpu.Runtime

/-- Element `i` of a raw f16 file. -/
def fileWord (file : List UInt8) (i : Nat) : UInt16 := loadU16 (fun a => file.getD a 0) (i * 2)

/-- **The inputs**: the memref arguments are the files, in order. -/
def inputTensor (args : List (Option MemRefType)) (files : List (List UInt8)) (v : Value) :
    Contents :=
  match (funcArgs 0 0 args).idxOf? v with
  | some k => wordsOf v.type.words (fileWord (files.getD k []))
  | none => wordsOf v.type.words fun _ => 0

section Arguments

variable {args : List (Option MemRefType)} {i k : Nat} {v : Value}

theorem blockArg_of_mem (h : v ∈ funcArgs 0 i args) : ∃ k t, i ≤ k ∧ v = .blockArg 0 k t := by
  induction args generalizing i with
  | nil => cases h
  | cons arg args ih =>
      cases arg with
      | none =>
          obtain ⟨k, t, hk, rfl⟩ := ih h
          exact ⟨k, t, by omega, rfl⟩
      | some t =>
          rcases List.mem_cons.mp h with rfl | h
          · exact ⟨i, t, Nat.le_refl i, rfl⟩
          · obtain ⟨k, t', hk, rfl⟩ := ih h
            exact ⟨k, t', by omega, rfl⟩

theorem funcArgs_nodup (i : Nat) (args : List (Option MemRefType)) :
    (funcArgs 0 i args).Nodup := by
  induction args generalizing i with
  | nil => exact .nil
  | cons arg args ih =>
      cases arg with
      | none => exact ih (i + 1)
      | some t =>
          refine List.nodup_cons.mpr ⟨fun hmem => ?_, ih (i + 1)⟩
          obtain ⟨k, t', hk, heq⟩ := blockArg_of_mem hmem
          cases heq
          omega

theorem inputTensor_arg {files : List (List UInt8)} (h : (funcArgs 0 0 args)[k]? = some v) :
    inputTensor args files v = wordsOf v.type.words (fileWord (files.getD k [])) := by
  obtain ⟨hk, hget⟩ := List.getElem?_eq_some_iff.mp h
  have hidx : (funcArgs 0 0 args).idxOf? v = some k := by
    rw [List.idxOf?_eq_some_iff]
    refine ⟨hk, hget, fun j hj heq => ?_⟩
    rw [← hget, (funcArgs_nodup 0 args).getElem_inj_iff] at heq
    omega
  rw [inputTensor, hidx]

theorem inputTensor_other {files : List (List UInt8)} (h : v ∉ funcArgs 0 0 args) :
    inputTensor args files v = wordsOf v.type.words fun _ => 0 := by
  rw [inputTensor, List.idxOf?_eq_none_iff.mpr h]

end Arguments

/-- A file changes its own bytes only. -/
theorem writeInputs_frame {files : List (List UInt8)} {s s' : CModel}
    (h : writeInputs files s = .ok s') {a : Nat}
    (ha : ∀ k f, files[k]? = some f →
      a < (slotAddr ddrStart k).toNat ∨ (slotAddr ddrStart k).toNat + f.length ≤ a) :
    s'.ddrByte a = s.ddrByte a := by
  refine forLoop_inv (fun _ t => t.ddrByte a = s.ddrByte a) rfl (fun k hk t t' ht hrun => ?_) h
  obtain ⟨-, rfl⟩ := writeDDR_ok_iff.mp hrun
  rw [← ht]
  refine storeDdr_out ?_
  have hget : files[k]? = some (files.getD k []) := by
    rw [List.getD_eq_getElem _ _ hk, List.getElem?_eq_getElem hk]
  rw [inputAddr_eq]
  exact ha k _ hget

section Read

variable {args : List (Option MemRefType)} {body : List Stmt} {layout : Layout}
  {files : List (List UInt8)} {v : Value}

/-- **What `eclipse-run` has read** before the first instruction. -/
theorem inputs_read (halloc : eclipseAllocate .bump [⟨args, body⟩] = some layout)
    (hfit : SizesFit [⟨args, body⟩])
    (hfiles : files.map List.length
      = (funcArgs 0 0 args).map fun v => v.type.sizeInBytes) :
    ∃ u, writeInputs files (fun _ => 0) = .ok u
      ∧ ∀ v, layout.tensor u v = inputTensor args files v := by
  have hb := ddrBuffers_eq halloc
  have hargs : argValues 0 [⟨args, body⟩] = funcArgs 0 0 args := List.append_nil _
  obtain ⟨u, hu, hholds⟩ := (ddrLayoutOk_of_sizesFit hb hfit).inputs files (fun _ => 0)
    (by rw [hargs]; exact hfiles)
  refine ⟨u, hu, fun v => ?_⟩
  have hbound : v ∈ funcArgs 0 0 args → ∃ a, ddrBaseAddr layout v = some a := fun hv =>
    ddrBaseAddr_of_mem halloc (List.mem_append_left _ (by rw [hargs]; exact hv))
  cases hv : ddrBaseAddr layout v with
  | none =>
      have hnot : v ∉ funcArgs 0 0 args := by
        intro hmem
        obtain ⟨a, ha⟩ := hbound hmem
        rw [hv] at ha
        cases ha
      rw [inputTensor_other hnot]
      refine wordsOf_congr fun i _ => ?_
      rw [Layout.contents, hv]
  | some a =>
      have hmem := ddrBaseAddr_mem hv
      rw [hb] at hmem
      obtain ⟨j, hj⟩ := List.mem_iff_getElem?.mp hmem
      obtain ⟨w, hw, heq⟩ := numbered_get.mp hj
      cases heq
      have hsize := words_le v.type
      by_cases hlt : j < (funcArgs 0 0 args).length
      · -- an argument holds its file
        have harg : (funcArgs 0 0 args)[j]? = some v := by
          rw [ddrValues, hargs, List.getElem?_append_left hlt] at hw
          exact hw
        have hlen : files[j]?.map List.length = some v.type.sizeInBytes := by
          rw [← List.getElem?_map, hfiles, List.getElem?_map, harg]
          rfl
        obtain ⟨f, hf, hflen⟩ := Option.map_eq_some_iff.mp hlen
        have hfile := hholds j f _ hf (by rw [hb]; exact hj)
        rw [inputTensor_arg harg, List.getD_eq_getElem?_getD, hf, Option.getD_some]
        refine wordsOf_congr fun i hi => ?_
        have hbyte : ∀ k, k < f.length → u.ddrByte ((slotAddr ddrStart j).toNat + k)
            = f.getD k 0 := by
          intro k hk
          rw [List.getD_eq_getElem _ _ hk]
          exact hfile k hk
        rw [Layout.contents_eq hv, ddrElem, fileWord, loadU16, loadU16,
          hbyte _ (by omega), Nat.add_assoc, hbyte _ (by omega)]
      · -- an alloc is untouched
        have hnot : v ∉ funcArgs 0 0 args := by
          intro hmem
          have hno := isAlloc_of_mem_argValues (by rw [hargs]; exact hmem)
          rw [ddrValues, hargs, List.getElem?_append_right (by omega)] at hw
          have hyes := isAlloc_of_mem_allocValues
            (List.mem_filter.mp (List.mem_of_getElem? hw)).1
          rw [hno] at hyes
          cases hyes
        rw [inputTensor_other hnot]
        refine wordsOf_congr fun i hi => ?_
        have hzero : ∀ k, k < v.type.sizeInBytes →
            u.ddrByte ((slotAddr ddrStart j).toNat + k) = 0 := by
          intro k hk
          refine writeInputs_frame hu fun n f hf => ?_
          by_contra hin
          obtain ⟨hn, hnsize⟩ := @file_size [⟨args, body⟩] files
            (by rw [hargs]; exact hfiles) n f hf
          obtain ⟨w, hw', hwsize⟩ := ddrSizes_get.mp hnsize
          rw [hargs] at hn
          refine hfit.apart hw hw' (by omega) (a := (slotAddr ddrStart j).toNat + k) ?_ ?_
          · exact ⟨Nat.le_add_right _ _, by dsimp only; omega⟩
          · exact ⟨by dsimp only; omega, by dsimp only; omega⟩
        rw [Layout.contents_eq hv, ddrElem, loadU16, hzero _ (by omega), Nat.add_assoc,
          hzero _ (by omega)]
        rfl

end Read

end EclipseNpu.Compiler

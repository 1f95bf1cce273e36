import EclipseNpu.Compiler.Lowering
import Mathlib.Data.List.Basic

/-!
# Compiler — ElideCopies

`eclipse-elide-copies` on a function body: a load that reads back what a store
of the same block wrote last is dropped and its tile replaced by the stored one
(`forwardLoads`); a store that was matched is erased when nothing but casts and
subviews uses the buffer (`eraseStores`).

An operation in the match list is a reference: its operands are read when it is
processed, after the replacements made so far.
-/

namespace EclipseNpu.Compiler

/-- Through casts, not through subviews. -/
def getCastSource : Value → Value
  | .memorySpaceCast _ source _ => getCastSource source
  | v => v

structure Match where
  storeOp : Inst
  loadOp : Inst
  deriving DecidableEq

namespace Op

/-- `getSrc()` and `getDst()` of a DMA operation. -/
def dmaSrc : Op → Option Value
  | dmaLoad src _ | dmaStore src _ => some src
  | _ => none

def dmaDst : Op → Option Value
  | dmaLoad _ dst | dmaStore _ dst => some dst
  | _ => none

end Op

/-! ## The match list -/

/-- `lastStore`: per buffer the last store of the walk and its block. -/
abbrev LastStore := Value → Option (Inst × Option OpId)

/-- One operation of the walk. -/
def collect (s : LastStore × List Match) (op : Inst × Option OpId) :
    LastStore × List Match :=
  match op.1.op with
  | .dmaStore _ dst =>
      (fun key => if key = getCastSource dst then some op else s.1 key, s.2)
  | .dmaLoad src _ =>
      match s.1 (getCastSource src) with
      | some store =>
          if store.2 = op.2 then (s.1, s.2 ++ [⟨store.1, op.1⟩]) else s
      | none => s
  | _ => s

def matchList (body : List Stmt) : List Match :=
  ((body.flatMap Stmt.walk).foldl collect (fun _ => none, [])).2

/-! ## Forwarding -/

/-- Edit a body one operation at a time; `none` erases it. -/
def editBody (f : Inst → Option Inst) (body : List Stmt) : List Stmt :=
  body.flatMap (Stmt.mapInsts (List.filterMap f))

/-- `replaceAllUsesWith` for every pair, in order. -/
def replaceAll (pairs : List (Value × Value)) (op : Op) : Op :=
  pairs.foldl (fun op e => op.replace e.1 e.2) op

/-- `m.loadOp.getDst().replaceAllUsesWith(m.storeOp.getSrc())`, then
`m.loadOp.erase()`. -/
def forwardLoad (s : List (Value × Value) × List Stmt) (m : Match) :
    List (Value × Value) × List Stmt :=
  match (replaceAll s.1 m.loadOp.op).dmaDst, (replaceAll s.1 m.storeOp.op).dmaSrc with
  | some dst, some src =>
      (s.1 ++ [(dst, src)],
        editBody (fun i => if i.id = m.loadOp.id then none
          else some { i with op := i.op.replace dst src }) s.2)
  | _, _ => s

def forwardLoads (ms : List Match) (body : List Stmt) :
    List (Value × Value) × List Stmt :=
  ms.foldl forwardLoad ([], body)

/-! ## Erasing stores -/

/-- Every use of the view is the store, a cast or a subview. -/
def viewOnlyFeedsStore (insts : List Inst) (view : Value) (storeOp : OpId) : Bool :=
  (users insts view).all fun use =>
    use.id = storeOp
      || match use.op with
        | .define v => v.isCastOrSubView
        | _ => false

/-- Every user of the buffer is a cast or a subview that only feeds the store. -/
def rootIsDead (insts : List Inst) (storeOp : OpId) (dst : Value) : Bool :=
  (users insts (getCastSource dst)).all fun user =>
    match user.op with
    | .define v => v.isCastOrSubView && viewOnlyFeedsStore insts v storeOp
    | _ => false

/-- `done` and the body. -/
def eraseStore (pairs : List (Value × Value)) (s : List OpId × List Stmt) (m : Match) :
    List OpId × List Stmt :=
  if m.storeOp.id ∈ s.1 then s
  else
    (m.storeOp.id :: s.1,
      match (replaceAll pairs m.storeOp.op).dmaDst with
      | some dst =>
          if rootIsDead (bodyInsts s.2) m.storeOp.id dst then
            editBody (fun i => if i.id = m.storeOp.id then none else some i) s.2
          else s.2
      | none => s.2)

def eraseStores (pairs : List (Value × Value)) (ms : List Match) (body : List Stmt) :
    List Stmt :=
  (ms.foldl (eraseStore pairs) ([], body)).2

/-- `EclipseElideCopies::runOnOperation`. -/
def elideCopies (body : List Stmt) : List Stmt :=
  let ms := matchList body
  let (pairs, forwarded) := forwardLoads ms body
  eraseStores pairs ms forwarded

/-! ## Editing -/

section Edit

variable {f g : Inst → Option Inst} {body : List Stmt}

theorem mapInsts_insts (i : Inst) :
    Stmt.mapInsts (List.filterMap f) (.inst i) = ((f i).map Stmt.inst).toList := by
  rw [Stmt.mapInsts, List.filterMap_cons]
  cases f i with
  | none => rfl
  | some j => rfl

theorem bodyInsts_editBody : bodyInsts (editBody f body) = (bodyInsts body).filterMap f := by
  induction body with
  | nil => rfl
  | cons s body ih =>
      rw [editBody, List.flatMap_cons, bodyInsts, List.flatMap_append, bodyInsts,
        List.flatMap_cons, List.filterMap_append]
      refine congr (congrArg _ ?_) ih
      cases s with
      | inst i =>
          rw [mapInsts_insts, Stmt.insts, List.filterMap_cons, List.filterMap_nil]
          cases f i with
          | none => rfl
          | some j => rfl
      | scfFor id lb ub step insts =>
          show [_].flatMap _ = _
          rw [List.flatMap_singleton]
          rfl

theorem editBody_editBody :
    editBody g (editBody f body) = editBody (fun i => (f i).bind g) body := by
  induction body with
  | nil => rfl
  | cons s body ih =>
      rw [editBody, editBody, List.flatMap_cons, List.flatMap_append, editBody,
        List.flatMap_cons]
      refine congr (congrArg _ ?_) ih
      cases s with
      | inst i =>
          rw [mapInsts_insts, mapInsts_insts]
          cases hf : f i with
          | none => rfl
          | some j =>
              show [_].flatMap _ = _
              rw [List.flatMap_singleton, mapInsts_insts]
              rfl
      | scfFor id lb ub step insts =>
          show [_].flatMap _ = _
          rw [List.flatMap_singleton, Stmt.mapInsts, Stmt.mapInsts, List.filterMap_filterMap]

theorem editBody_congr (h : ∀ i ∈ bodyInsts body, f i = g i) :
    editBody f body = editBody g body := by
  induction body with
  | nil => rfl
  | cons s body ih =>
      rw [editBody, editBody, List.flatMap_cons, List.flatMap_cons]
      have hhead : ∀ i ∈ s.insts, f i = g i := fun i hi =>
        h i (List.mem_append_left _ hi)
      refine congr (congrArg _ ?_) (ih fun i hi => h i (List.mem_append_right _ hi))
      cases s with
      | inst i =>
          rw [mapInsts_insts, mapInsts_insts, hhead i (by simp [Stmt.insts])]
      | scfFor id lb ub step insts =>
          have hinsts : List.filterMap f insts = List.filterMap g insts :=
            List.filterMap_congr hhead
          rw [Stmt.mapInsts, Stmt.mapInsts, hinsts]

theorem editBody_some : editBody some body = body := by
  induction body with
  | nil => rfl
  | cons s body ih =>
      rw [editBody, List.flatMap_cons]
      show _ ++ editBody some body = _
      rw [ih]
      cases s with
      | inst i => rfl
      | scfFor id lb ub step insts => rw [Stmt.mapInsts, List.filterMap_some]; rfl

end Edit

/-! ## Closed forms -/

/-- Operations outside a list of ids. -/
def dropIds (ids : List OpId) (i : Inst) : Option Inst :=
  if i.id ∈ ids then none else some i

/-- The edit of a list of matches: the loads go, their tiles are replaced. -/
def forwardEdit (loads : List OpId) (pairs : List (Value × Value)) (i : Inst) :
    Option Inst :=
  if i.id ∈ loads then none else some { i with op := replaceAll pairs i.op }

theorem replaceAll_append (xs ys : List (Value × Value)) (op : Op) :
    replaceAll (xs ++ ys) op = replaceAll ys (replaceAll xs op) :=
  List.foldl_append

/-- The operands of the matched operations are not among the tiles that earlier
matches replace. -/
structure Unaffected (pair : Match → Value × Value) (m m' : Match) : Prop where
  load : m'.loadOp.op.replace (pair m).1 (pair m).2 = m'.loadOp.op
  store : m'.storeOp.op.replace (pair m).1 (pair m).2 = m'.storeOp.op

/-- **All matches at once.** -/
theorem forwardLoads_from {pair : Match → Value × Value} {ms : List Match}
    (hpair : ∀ m ∈ ms, m.loadOp.op.dmaDst = some (pair m).1
      ∧ m.storeOp.op.dmaSrc = some (pair m).2)
    (hind : ms.Pairwise (Unaffected pair)) {pairs : List (Value × Value)}
    (hfix : ∀ m ∈ ms, replaceAll pairs m.loadOp.op = m.loadOp.op
      ∧ replaceAll pairs m.storeOp.op = m.storeOp.op) (body : List Stmt) :
    ms.foldl forwardLoad (pairs, body)
      = (pairs ++ ms.map pair,
        editBody (forwardEdit (ms.map (·.loadOp.id)) (ms.map pair)) body) := by
  induction ms generalizing pairs body with
  | nil =>
      rw [List.foldl_nil, List.map_nil, List.append_nil, List.map_nil]
      exact congrArg _ editBody_some.symm
  | cons m ms ih =>
      obtain ⟨hdst, hsrc⟩ := hpair m (by simp)
      obtain ⟨hload, hstore⟩ := hfix m (by simp)
      obtain ⟨hhead, htail⟩ := List.pairwise_cons.mp hind
      have hstep : forwardLoad (pairs, body) m
          = (pairs ++ [pair m], editBody (forwardEdit [m.loadOp.id] [pair m]) body) := by
        rw [forwardLoad, hload, hstore, hdst, hsrc]
        refine congrArg _ (editBody_congr fun i _ => ?_)
        simp [forwardEdit, replaceAll]
      rw [List.foldl_cons, hstep, ih (fun m' hm' => hpair m' (by simp [hm'])) htail
        (fun m' hm' => ?_), editBody_editBody]
      · refine congr (congrArg _ (by simp)) (editBody_congr fun i _ => ?_)
        by_cases hi : i.id = m.loadOp.id
        · simp [forwardEdit, hi]
        · simp [forwardEdit, hi, replaceAll]
      · obtain ⟨hl, hs⟩ := hfix m' (by simp [hm'])
        rw [replaceAll_append, replaceAll_append, hl, hs]
        exact ⟨(hhead m' hm').load, (hhead m' hm').store⟩

theorem forwardLoads_eq {pair : Match → Value × Value} {ms : List Match}
    (hpair : ∀ m ∈ ms, m.loadOp.op.dmaDst = some (pair m).1
      ∧ m.storeOp.op.dmaSrc = some (pair m).2)
    (hind : ms.Pairwise (Unaffected pair)) (body : List Stmt) :
    forwardLoads ms body
      = (ms.map pair, editBody (forwardEdit (ms.map (·.loadOp.id)) (ms.map pair)) body) :=
  forwardLoads_from hpair hind (fun _ _ => ⟨rfl, rfl⟩) body

/-- **All erasures at once**, when erasing other stores does not change whether
a store is erased. -/
theorem eraseStores_eq {pairs : List (Value × Value)} {ms : List Match}
    {body : List Stmt} {dead : OpId → Bool}
    (h : ∀ m ∈ ms, ∃ dst, (replaceAll pairs m.storeOp.op).dmaDst = some dst
      ∧ ∀ ids : List OpId, (∀ id ∈ ids, dead id = true ∧ id ≠ m.storeOp.id
          ∧ ∃ m' ∈ ms, m'.storeOp.id = id) →
        rootIsDead ((bodyInsts body).filterMap (dropIds ids)) m.storeOp.id dst
          = dead m.storeOp.id) :
    eraseStores pairs ms body
      = editBody (dropIds ((ms.map (·.storeOp.id)).filter dead)) body := by
  have hrun : ∀ ns : List Match, (∀ m ∈ ns, m ∈ ms) → ∀ ids : List OpId,
      (∀ id ∈ ids, ∃ m ∈ ms, m.storeOp.id = id) →
      ∃ ids', ns.foldl (eraseStore pairs) (ids, editBody (dropIds (ids.filter dead)) body)
          = (ids', editBody (dropIds (ids'.filter dead)) body)
        ∧ ∀ id, id ∈ ids' ↔ id ∈ ids ∨ ∃ m ∈ ns, m.storeOp.id = id := by
    intro ns
    induction ns with
    | nil => exact fun _ ids _ => ⟨ids, rfl, by simp⟩
    | cons m ns ih =>
        intro hns ids hids
        rw [List.foldl_cons]
        have hm := hns m (by simp)
        by_cases hdone : m.storeOp.id ∈ ids
        · rw [eraseStore, if_pos hdone]
          obtain ⟨ids', hfold, hmem⟩ := ih (fun n hn => hns n (by simp [hn])) ids hids
          refine ⟨ids', hfold, fun id => ?_⟩
          rw [hmem id]
          constructor
          · rintro (hid | ⟨n, hn, rfl⟩)
            · exact .inl hid
            · exact .inr ⟨n, by simp [hn], rfl⟩
          · rintro (hid | ⟨n, hn, rfl⟩)
            · exact .inl hid
            · rcases List.mem_cons.mp hn with rfl | hn
              · exact .inl hdone
              · exact .inr ⟨n, hn, rfl⟩
        · obtain ⟨dst, hdst, hdead⟩ := h m hm
          have hroot := hdead (ids.filter dead) fun id hid => by
            obtain ⟨hid, hd⟩ := List.mem_filter.mp hid
            exact ⟨hd, fun heq => hdone (heq ▸ hid), hids id hid⟩
          have hstep : eraseStore pairs (ids, editBody (dropIds (ids.filter dead)) body) m
              = (m.storeOp.id :: ids,
                editBody (dropIds ((m.storeOp.id :: ids).filter dead)) body) := by
            rw [eraseStore, if_neg hdone, hdst]
            dsimp only
            rw [bodyInsts_editBody, hroot]
            refine congrArg _ ?_
            cases hd : dead m.storeOp.id with
            | false => rw [if_neg (by decide), List.filter_cons_of_neg (by rw [hd]; decide)]
            | true =>
                rw [if_pos rfl, List.filter_cons_of_pos hd, editBody_editBody]
                refine editBody_congr fun i _ => ?_
                by_cases hi : i.id ∈ ids.filter dead
                · simp [dropIds, hi]
                · simp [dropIds, hi]
          rw [hstep]
          obtain ⟨ids', hfold, hmem⟩ := ih (fun n hn => hns n (by simp [hn]))
            (m.storeOp.id :: ids) (by
              intro id hid
              rcases List.mem_cons.mp hid with rfl | hid
              · exact ⟨m, hm, rfl⟩
              · exact hids id hid)
          refine ⟨ids', hfold, fun id => ?_⟩
          rw [hmem id, List.mem_cons]
          constructor
          · rintro ((rfl | hid) | ⟨n, hn, rfl⟩)
            · exact .inr ⟨m, by simp, rfl⟩
            · exact .inl hid
            · exact .inr ⟨n, by simp [hn], rfl⟩
          · rintro (hid | ⟨n, hn, rfl⟩)
            · exact .inl (.inr hid)
            · rcases List.mem_cons.mp hn with rfl | hn
              · exact .inl (.inl rfl)
              · exact .inr ⟨n, hn, rfl⟩
  obtain ⟨ids', hfold, hmem⟩ := hrun ms (fun m hm => hm) [] (by simp)
  have hstart : editBody (dropIds (([] : List OpId).filter dead)) body = body :=
    editBody_some
  rw [hstart] at hfold
  rw [eraseStores, hfold]
  refine editBody_congr fun i _ => ?_
  have hiff : i.id ∈ ids'.filter dead ↔ i.id ∈ (ms.map (·.storeOp.id)).filter dead := by
    rw [List.mem_filter, List.mem_filter, hmem, List.mem_map]
    simp
  rw [dropIds, dropIds]
  simp only [hiff]

end EclipseNpu.Compiler

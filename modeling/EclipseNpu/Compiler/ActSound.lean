import EclipseNpu.Compiler.LoopNest
import EclipseNpu.Compiler.UnaryStream
import EclipseNpu.Runtime.ReduceOverlap

/-!
# Compiler — ActSound

What `ActLowering` gets right. The pattern looks at the body only, so any
indexing maps may come with a `max(x, 0)`, and both spellings of the maximum
become the same RELU. The stream applies RELU position by position
(`run_act`); the generic does so only if its two maps pick the same position
at every loop point, and RELU has the NaN rule of `maxnumf` alone.
-/

namespace EclipseNpu.Compiler

open EclipseNpu.Lib EclipseNpu.Lib.Ieee754 EclipseNpu.Runtime

/-! ## The body -/

/-- The input and the zero, in either order. -/
def InputAndZero (zero : UInt16) (l r : ScalarExpr) : Prop :=
  (l = .arg 0 ∧ r = .constant zero) ∨ (l = .constant zero ∧ r = .arg 0)

/-- A body `matchActBody` takes for RELU. -/
inductive ReluBody : ScalarExpr → Prop
  | maximumf {zero : UInt16} {l r : ScalarExpr} (hzero : zero = 0 ∨ zero = 0x8000)
      (h : InputAndZero zero l r) : ReluBody (.maximumf l r)
  | maxnumf {zero : UInt16} {l r : ScalarExpr} (hzero : zero = 0 ∨ zero = 0x8000)
      (h : InputAndZero zero l r) : ReluBody (.maxnumf l r)

/-- The maximum of the body drops a NaN operand. -/
def ScalarExpr.isMaxNum : ScalarExpr → Bool
  | .maxnumf _ _ => true
  | _ => false

theorem isMaxNum_maximumf (l r : ScalarExpr) : (ScalarExpr.maximumf l r).isMaxNum = false :=
  rfl

theorem isAnyZeroFloat_eq {e : ScalarExpr} (h : isAnyZeroFloat e = true) :
    ∃ zero, (zero = 0 ∨ zero = 0x8000) ∧ e = .constant zero := by
  unfold isAnyZeroFloat at h
  split at h
  · exact ⟨_, of_decide_eq_true h, rfl⟩
  · cases h

theorem inputAndZero_of_match {l r : ScalarExpr}
    (h : (l = .arg 0 ∧ isAnyZeroFloat r = true) ∨ (r = .arg 0 ∧ isAnyZeroFloat l = true)) :
    ∃ zero, (zero = 0 ∨ zero = 0x8000) ∧ InputAndZero zero l r := by
  rcases h with ⟨hl, hr⟩ | ⟨hr, hl⟩
  · obtain ⟨zero, hzero, hr⟩ := isAnyZeroFloat_eq hr
    exact ⟨zero, hzero, .inl ⟨hl, hr⟩⟩
  · obtain ⟨zero, hzero, hl⟩ := isAnyZeroFloat_eq hl
    exact ⟨zero, hzero, .inr ⟨hl, hr⟩⟩

theorem matchActBody_some {root : ScalarExpr} {kind : ActKind}
    (h : matchActBody root = some kind) : kind = .RELU ∧ ReluBody root := by
  unfold matchActBody at h
  dsimp only at h
  split at h
  · split_ifs at h with hm
    obtain ⟨zero, hzero, hm⟩ := inputAndZero_of_match hm
    cases h
    exact ⟨rfl, .maximumf hzero hm⟩
  · split_ifs at h with hm
    obtain ⟨zero, hzero, hm⟩ := inputAndZero_of_match hm
    cases h
    exact ⟨rfl, .maxnumf hzero hm⟩
  · cases h

/-! ## Values -/

/-- What RELU leaves of an element. -/
def relu16 (h : UInt16) : UInt16 :=
  if binary16.isNaN h.toNat = false ∧ 0 < binary16.value h.toNat then h else 0

section Values

theorem rank_zero_half : binary16.rank (0 : UInt16).toNat = 0 := by decide +kernel

theorem rank_of_zero {zero : UInt16} (h : zero = 0 ∨ zero = 0x8000) :
    binary16.rank zero.toNat = 0 := by
  rcases h with rfl | rfl
  · exact rank_zero_half
  · decide +kernel

/-- A number becomes its maximum with zero. -/
theorem rank_relu16 {h : UInt16} (hnan : binary16.isNaN h.toNat = false) :
    binary16.rank (relu16 h).toNat = max (binary16.rank h.toNat) 0 := by
  have hrank : binary16.rank h.toNat = (binary16.value h.toNat : WithTop Extended) :=
    Format.rank_of_not_isNaN hnan
  unfold relu16
  by_cases hpos : 0 < binary16.value h.toNat
  · have hle : 0 ≤ (binary16.value h.toNat : WithTop Extended) :=
      WithTop.coe_le_coe.mpr hpos.le
    rw [if_pos ⟨hnan, hpos⟩, hrank, max_eq_left hle]
  · have hle : (binary16.value h.toNat : WithTop Extended) ≤ 0 :=
      WithTop.coe_le_coe.mpr (not_lt.mp hpos)
    rw [if_neg fun hp => hpos hp.2, hrank, max_eq_right hle, rank_zero_half]

theorem relu16_nan {h : UInt16} (hnan : binary16.isNaN h.toNat = true) : relu16 h = 0 := by
  unfold relu16
  rw [if_neg fun hp => by rw [hnan] at hp; cases hp.1]

/-- It is never negative. -/
theorem rank_relu16_nonneg (h : UInt16) : 0 ≤ binary16.rank (relu16 h).toNat := by
  cases hnan : binary16.isNaN h.toNat with
  | true => rw [relu16_nan hnan, rank_zero_half]
  | false => rw [rank_relu16 hnan]; exact le_max_right _ _

variable [FloatArith]

/-- RELU of the executor, between the two formats. -/
theorem relu_half (h : UInt16) :
    SameFloat (fp32ToFp16 (ActKind.RELU.eval UInt32 (fp16ToFp32 h))) (relu16 h) := by
  have hzero : isnan 0 = false := by decide
  have hback : fp32ToFp16 0 = 0 := by decide +kernel
  show SameFloat (fp32ToFp16 (if Fp32.gt (fp16ToFp32 h) 0 then fp16ToFp32 h else 0)) _
  cases hnan : binary16.isNaN h.toNat with
  | true =>
      have hgt : Fp32.gt (fp16ToFp32 h) 0 = false := by
        show (!isnan (fp16ToFp32 h) && _ && _) = false
        rw [show isnan (fp16ToFp32 h) = true from isNaN_fp16ToFp32.trans hnan]
        rfl
      rw [hgt, relu16_nan hnan]
      simp only [Bool.false_eq_true, if_false, hback]
      rfl
  | false =>
      have hgt : Fp32.gt (fp16ToFp32 h) 0 = decide (0 < binary16.value h.toNat) := by
        rw [gt_eq (isNaN_fp16ToFp32.trans hnan) hzero, floatValue_zero, floatValue,
          value_fp16ToFp32 hnan]
      rw [hgt, relu16]
      by_cases hpos : 0 < binary16.value h.toNat
      · rw [decide_eq_true hpos, if_pos rfl, if_pos ⟨hnan, hpos⟩]
        exact sameFloat_narrow h
      · rw [decide_eq_false hpos, if_neg (by decide), if_neg fun hp => hpos hp.2, hback]
        rfl

/-- **The body on patterns**: the maximum of the element and a zero, by one of
the two rules for NaN. -/
theorem ReluBody.eval_eq {root : ScalarExpr} (hroot : ReluBody root)
    {args u : Nat → UInt32} {h : UInt16} (harg : args 0 = fp16ToFp32 h) :
    ∃ zero a b : UInt16, binary16.rank zero.toNat = 0
      ∧ ((a = h ∧ b = zero) ∨ (a = zero ∧ b = h))
      ∧ root.eval args u
        = if root.isMaxNum ∧ isnan (fp16ToFp32 a) then fp16ToFp32 b
          else if root.isMaxNum ∧ isnan (fp16ToFp32 b) then fp16ToFp32 a
          else reduceMax (fp16ToFp32 a) (fp16ToFp32 b) := by
  have hfalse : ∀ q : Prop, ¬ (false = true ∧ q) := fun q hq => by cases hq.1
  cases hroot with
  | @maximumf zero l r hzero hlr =>
      rcases hlr with ⟨rfl, rfl⟩ | ⟨rfl, rfl⟩
      · refine ⟨zero, h, zero, rank_of_zero hzero, .inl ⟨rfl, rfl⟩, ?_⟩
        rw [isMaxNum_maximumf, if_neg (hfalse _), if_neg (hfalse _), ← harg]
        rfl
      · refine ⟨zero, zero, h, rank_of_zero hzero, .inr ⟨rfl, rfl⟩, ?_⟩
        rw [isMaxNum_maximumf, if_neg (hfalse _), if_neg (hfalse _), ← harg]
        rfl
  | @maxnumf zero l r hzero hlr =>
      rcases hlr with ⟨rfl, rfl⟩ | ⟨rfl, rfl⟩
      · refine ⟨zero, h, zero, rank_of_zero hzero, .inl ⟨rfl, rfl⟩, ?_⟩
        simp only [ScalarExpr.isMaxNum, true_and, ← harg]
        rfl
      · refine ⟨zero, zero, h, rank_of_zero hzero, .inr ⟨rfl, rfl⟩, ?_⟩
        simp only [ScalarExpr.isMaxNum, true_and, ← harg]
        rfl

omit [FloatArith] in
theorem isNaN_of_rank_zero {zero : UInt16} (h : binary16.rank zero.toNat = 0) :
    isnan (fp16ToFp32 zero) = false := by
  refine isNaN_fp16ToFp32.trans (Bool.eq_false_iff.mpr fun hnan => ?_)
  rw [Format.rank_eq_top.mpr hnan] at h
  exact WithTop.top_ne_zero h

/-- **On a number the body is RELU.** -/
theorem ReluBody.number {root : ScalarExpr} (hroot : ReluBody root)
    {args unknown : Nat → UInt32} {h : UInt16} (harg : args 0 = fp16ToFp32 h)
    (hnan : binary16.isNaN h.toNat = false) :
    SameFloat (fp32ToFp16 (root.eval args unknown)) (relu16 h) := by
  obtain ⟨zero, a, b, hzero, hab, heval⟩ := hroot.eval_eq (u := unknown) harg
  have hz := isNaN_of_rank_zero hzero
  have hx : isnan (fp16ToFp32 h) = false := isNaN_fp16ToFp32.trans hnan
  rw [SameFloat, rank_relu16 hnan, heval]
  rcases hab with ⟨rfl, rfl⟩ | ⟨rfl, rfl⟩
  · simp only [hx, hz, Bool.false_eq_true, and_false, if_false]
    rw [rank_narrow_reduceMax, hzero]
  · simp only [hx, hz, Bool.false_eq_true, and_false, if_false]
    rw [rank_narrow_reduceMax, hzero, max_comm]

/-- **On a NaN** `maxnumf` gives the zero and `maximumf` a NaN. -/
theorem ReluBody.nan {root : ScalarExpr} (hroot : ReluBody root)
    {args unknown : Nat → UInt32} {h : UInt16} (harg : args 0 = fp16ToFp32 h)
    (hnan : binary16.isNaN h.toNat = true) :
    binary16.rank (fp32ToFp16 (root.eval args unknown)).toNat
      = if root.isMaxNum then 0 else ⊤ := by
  obtain ⟨zero, a, b, hzero, hab, heval⟩ := hroot.eval_eq (u := unknown) harg
  have hz := isNaN_of_rank_zero hzero
  have hx : isnan (fp16ToFp32 h) = true := isNaN_fp16ToFp32.trans hnan
  have hback : binary16.rank (fp32ToFp16 (fp16ToFp32 zero)).toNat = 0 :=
    (sameFloat_narrow zero).trans hzero
  have htop : binary16.rank h.toNat = ⊤ := Format.rank_eq_top.mpr hnan
  rw [heval]
  cases hmax : root.isMaxNum with
  | false =>
      simp only [Bool.false_eq_true, false_and, if_false]
      rcases hab with ⟨rfl, rfl⟩ | ⟨rfl, rfl⟩
      · rw [rank_narrow_reduceMax, htop, max_eq_left le_top]
      · rw [rank_narrow_reduceMax, htop, max_eq_right le_top]
  | true =>
      rcases hab with ⟨rfl, rfl⟩ | ⟨rfl, rfl⟩
      · simp only [hx, and_self, if_true]
        exact hback
      · simp only [hx, hz, Bool.false_eq_true, and_false, and_self, if_false, if_true]
        exact hback

end Values

/-! ## The stream -/

/-- The descriptor of a RELU over `n` elements. -/
def reluDesc (a : UnaryAddrs) (n : Nat) : ActParam :=
  { dstAddr := a.dstTile, srcAddr := a.srcTile, n := UInt32.ofNat n
    kind := ActKind.RELU.toU32 }

section Stream

variable {layout : Layout} {p rows cols : Nat} {src dst : Value} {a : UnaryAddrs}
  {d : UInt32}

def reluLines (a : UnaryAddrs) (rows cols : Nat) (d : UInt32) : List EasmInsn :=
  unaryLines a rows cols rows cols d (.act (slotAt d 1) (reluDesc a (rows * cols)))

/-- **The emitted stream.** -/
theorem emitInsts_relu (hp : UnaryPlacement layout p src (sramTypeOf dst) dst a)
    (hsrc : src.type.shape = [rows, cols]) (hdst : dst.type.shape = [rows, cols]) :
    emitInsts layout d (unrollBody (lowerAct p .RELU src dst))
      = some (reluLines a rows cols d, slotAt d 3) := by
  have hn : (tileIn p 0 (sramTypeOf dst)).type.numElements = rows * cols :=
    numElements_pair (v := tileIn p 0 (sramTypeOf dst)) hdst
  refine emitInsts_unary hp hsrc hdst ?_
  rw [← slotAt_succ d 1]
  simp only [emitOp, emitActOp, hp.srcTile, hp.dstTile, hn]
  rfl

variable [FloatArith]

/-- **The run**: RELU at every position. -/
theorem run_relu (hp : UnaryPlacement layout p src (sramTypeOf dst) dst a)
    (hsrc : src.type.shape = [rows, cols]) (hdst : dst.type.shape = [rows, cols])
    (g : UnaryGeometry a rows cols rows cols d) (s : CModel) :
    ∃ s', runEasm UInt32 (reluLines a rows cols d) s = .ok s'
      ∧ ∀ i < rows * cols, SameFloat (layout.contents s' dst i)
          (relu16 (layout.contents s src i)) := by
  have hend := g.input.tileIn.2
  rw [sramEnd_eq] at hend
  have hn : (reluDesc a (rows * cols)).n.toNat = rows * cols :=
    toNat_ofNat_small (by omega)
  obtain ⟨s', hs', hval⟩ := runEasm_unary (F := UInt32) (s := s)
    (emitInsts_relu hp hsrc hdst) g rfl nofun
    (v := fun i => fp32ToFp16 (ActKind.RELU.eval UInt32
      (fp16ToFp32 (ddrElem s a.src.toNat i))))
    (fun u hu => by
      obtain ⟨u', hu', hval, -⟩ := act_packed (F := UInt32) (s := u)
        (d := reluDesc a (rows * cols))
        (show (reluDesc a (rows * cols)).kind = ActKind.RELU.toU32 from rfl) hn g.output.tileIn
        g.input.tileIn g.tiles
      refine ⟨u', hu', fun i hi => ?_⟩
      have hv : elemAt u' a.dstTile.toNat i = fp32ToFp16 (ActKind.RELU.eval UInt32
          (fp16ToFp32 (elemAt u a.srcTile.toNat i))) := hval i hi
      rw [hv, hu i hi])
  refine ⟨s', hs', fun i hi => ?_⟩
  rw [Layout.contents_eq hp.dst, Layout.contents_eq hp.src, hval i hi]
  exact relu_half _

end Stream

/-! ## The accepted operation -/

theorem matchEwiseBroadcast_kind {op : GenericOp} {l : Lowering}
    (h : matchEwiseBroadcast op = some l) : ∃ kind big small out, l = .ewise kind big small out := by
  unfold matchEwiseBroadcast at h
  split at h
  case h_2 => cases h
  case h_1 =>
    simp only [Option.bind_eq_bind, Option.bind_eq_some_iff] at h
    obtain ⟨_, _, _, _, _, _, _, _, _, _, _, _, _, _, h⟩ := h
    split at h
    case h_2 => cases h
    case h_1 =>
      simp only [Option.bind_eq_some_iff, Option.pure_def, Option.some.injEq] at h
      obtain ⟨_, _, _, _, rfl⟩ := h
      exact ⟨_, _, _, _, rfl⟩

theorem matchGenericReduce_kind {op : GenericOp} {l : Lowering}
    (h : matchGenericReduce op = some l) : ∃ kind src dst, l = .reduce kind src dst false := by
  unfold matchGenericReduce at h
  split at h
  case h_2 => cases h
  case h_1 =>
    simp only [Option.bind_eq_bind, Option.bind_eq_some_iff, Option.pure_def,
      Option.some.injEq] at h
    obtain ⟨_, _, _, _, _, _, rfl⟩ := h
    exact ⟨_, _, _, rfl⟩

/-- An accepted generic went through one of the three patterns. -/
theorem convertOp_generic {op : GenericOp} {l : Lowering}
    (h : convertOp (.generic op) = some l) : l.verify = true
      ∧ (matchEwiseBroadcast op = some l ∨ matchAct op = some l
        ∨ matchGenericReduce op = some l) := by
  obtain ⟨l', hmatch, hl⟩ := Option.bind_eq_some_iff.mp h
  obtain ⟨_, hv, hl⟩ := Option.bind_eq_some_iff.mp hl
  cases hl
  refine ⟨(Option.guard_eq_some' _).mp hv, ?_⟩
  rcases Option.or_eq_some_iff.mp hmatch with hm | ⟨-, hm⟩
  · exact .inl hm
  rcases Option.or_eq_some_iff.mp hm with hm | ⟨-, hm⟩
  · exact .inr (.inl hm)
  · exact .inr (.inr hm)

/-- What `ActLowering` has matched. -/
structure ActMatch (op : GenericOp) (root : ScalarExpr) (kind : ActKind) (src dst : Value) :
    Prop where
  inputs : op.inputs = [src]
  outputs : op.outputs = [dst]
  kind : kind = .RELU
  body : ReluBody root

theorem matchAct_some {op : GenericOp} {l : Lowering} {root : ScalarExpr}
    {rest : List ScalarExpr} (hroot : op.yields = root :: rest) (h : matchAct op = some l) :
    ∃ kind src dst, l = .act kind src dst ∧ ActMatch op root kind src dst := by
  unfold matchAct at h
  split at h
  case h_2 => cases h
  case h_1 src dst root' rest' hin hout hy =>
    rw [hroot] at hy
    cases hy
    obtain ⟨kind, hk, rfl⟩ := Option.map_eq_some_iff.mp h
    obtain ⟨hkind, hbody⟩ := matchActBody_some hk
    exact ⟨kind, src, dst, rfl, hin, hout, hkind, hbody⟩

theorem convertOp_act {op : GenericOp} {kind : ActKind} {src dst : Value}
    {root : ScalarExpr} {rest : List ScalarExpr} (hroot : op.yields = root :: rest)
    (h : convertOp (.generic op) = some (.act kind src dst)) :
    ActMatch op root kind src dst ∧ (Lowering.act kind src dst).verify = true := by
  obtain ⟨hverify, hm | hm | hm⟩ := convertOp_generic h
  · obtain ⟨_, _, _, _, hm⟩ := matchEwiseBroadcast_kind hm
    cases hm
  · obtain ⟨_, _, _, hl, m⟩ := matchAct_some hroot hm
    cases hl
    exact ⟨m, hverify⟩
  · obtain ⟨_, _, _, hm⟩ := matchGenericReduce_kind hm
    cases hm

/-! ## Against the generic -/

section Sound

variable [FloatArith]

/-- **At every loop point the output shows the body**, from any memory. The
output's element before the run is block argument 1. -/
def ActWritten (op : GenericOp) (root : ScalarExpr) (unknown : Nat → UInt32)
    (bounds : List Nat) (layout : Layout) (dst : Value) (xs : List EasmInsn) : Prop :=
  ∀ s : CModel, ∀ p ∈ points bounds, ∃ s', runEasm UInt32 xs s = .ok s'
    ∧ SameFloat (layout.contents s' dst (op.positionAt 1 p))
      (fp32ToFp16 (op.bodyAt (layout.contents s) unknown root
        (op.elementAt (layout.contents s) p 1) p))

/-- **Where no loop point writes, the output keeps its elements.** -/
def ActKept (op : GenericOp) (bounds : List Nat) (layout : Layout) (dst : Value)
    (xs : List EasmInsn) : Prop :=
  ∀ s : CModel, ∀ i < dst.type.numElements, (∀ p ∈ points bounds, op.positionAt 1 p ≠ i) →
    ∃ s', runEasm UInt32 xs s = .ok s'
      ∧ SameFloat (layout.contents s' dst i) (layout.contents s dst i)

/-- The condition: the two maps agree at every loop point, and the maximum
drops NaN. -/
def ActAligned (op : GenericOp) (root : ScalarExpr) (bounds : List Nat) : Prop :=
  ∀ p ∈ points bounds, op.positionAt 0 p = op.positionAt 1 p ∧ root.isMaxNum = true

instance (op : GenericOp) (root : ScalarExpr) (bounds : List Nat) :
    Decidable (ActAligned op root bounds) :=
  inferInstanceAs (Decidable (∀ p ∈ points bounds, _))

/-- Every element of the output belongs to a loop point. -/
def ActCovered (op : GenericOp) (bounds : List Nat) (dst : Value) : Prop :=
  ∀ i < dst.type.numElements, ∃ p ∈ points bounds, op.positionAt 1 p = i

instance (op : GenericOp) (bounds : List Nat) (dst : Value) :
    Decidable (ActCovered op bounds dst) :=
  inferInstanceAs (Decidable (∀ i < dst.type.numElements, _))

variable {op : GenericOp} {root : ScalarExpr} {kind : ActKind} {src dst : Value}
  {bounds : List Nat} {layout : Layout} {a : UnaryAddrs} {rows cols : Nat}

/-- The body at a loop point, as a pattern: by its element's kind. -/
theorem ActMatch.body_at (m : ActMatch op root kind src dst) (mem : Value → Nat → UInt16)
    (unknown : Nat → UInt32) (acc : UInt32) (p : List Nat) :
    (binary16.isNaN (mem src (op.positionAt 0 p)).toNat = false →
        SameFloat (fp32ToFp16 (op.bodyAt mem unknown root acc p))
          (relu16 (mem src (op.positionAt 0 p))))
      ∧ (binary16.isNaN (mem src (op.positionAt 0 p)).toNat = true →
        binary16.rank (fp32ToFp16 (op.bodyAt mem unknown root acc p)).toNat
          = if root.isMaxNum then 0 else ⊤) := by
  obtain ⟨harg, -⟩ := op.argsAt_unary m.inputs mem acc p
  exact ⟨fun hnan => m.body.number harg hnan, fun hnan => m.body.nan harg hnan⟩

/-- Aligned maps: the body is RELU of the element the output stands at. -/
theorem ActMatch.body_aligned (m : ActMatch op root kind src dst)
    (hmax : root.isMaxNum = true) (mem : Value → Nat → UInt16) (unknown : Nat → UInt32)
    (acc : UInt32) (p : List Nat) :
    SameFloat (fp32ToFp16 (op.bodyAt mem unknown root acc p))
      (relu16 (mem src (op.positionAt 0 p))) := by
  obtain ⟨hnumber, hnan⟩ := m.body_at mem unknown acc p
  cases hn : binary16.isNaN (mem src (op.positionAt 0 p)).toNat with
  | false => exact hnumber hn
  | true =>
      rw [SameFloat, hnan hn, relu16_nan hn, hmax, rank_zero_half]
      rfl

/-- What a run of the stream leaves: RELU at every position. -/
def ReluRun (layout : Layout) (src dst : Value) (n : Nat) (xs : List EasmInsn) : Prop :=
  ∀ s : CModel, ∃ s', runEasm UInt32 xs s = .ok s'
    ∧ ∀ i < n, SameFloat (layout.contents s' dst i) (relu16 (layout.contents s src i))

/-- The end state is the one the run gives. -/
theorem ReluRun.at {n : Nat} {xs : List EasmInsn} (h : ReluRun layout src dst n xs)
    {s s' : CModel} (hs' : runEasm UInt32 xs s = .ok s') {i : Nat} (hi : i < n) :
    SameFloat (layout.contents s' dst i) (relu16 (layout.contents s src i)) := by
  obtain ⟨t, ht, hval⟩ := h s
  rw [hs'] at ht
  cases ht
  exact hval i hi

/-- **Written if and only if aligned.** -/
theorem actWritten_iff (m : ActMatch op root kind src dst)
    (hnest : LoopNest op.operands op.maps bounds) {addr : UInt32}
    (hsrc : ddrBaseAddr layout src = some addr) {xs : List EasmInsn}
    (hrun : ReluRun layout src dst dst.type.numElements xs) (unknown : Nat → UInt32) :
    ActWritten op root unknown bounds layout dst xs ↔ ActAligned op root bounds := by
  have hdst : op.operands[1]? = some dst := by
    rw [GenericOp.operands, m.inputs, m.outputs]
    rfl
  constructor
  · intro h p hp
    have hout := hnest.positionAt_lt hp hdst
    have haligned : op.positionAt 0 p = op.positionAt 1 p := by
      by_contra hne
      -- a one where the input map points, zeros elsewhere
      obtain ⟨s', hs', hbody⟩ := h (ddrHolding addr.toNat fun i =>
        if i = op.positionAt 0 p then 0x3C00 else 0) p hp
      have hrelu := hrun.at hs' hout
      obtain ⟨hnumber, -⟩ := m.body_at (layout.contents (ddrHolding addr.toNat fun i =>
        if i = op.positionAt 0 p then 0x3C00 else 0)) unknown
        (op.elementAt (layout.contents (ddrHolding addr.toNat fun i =>
          if i = op.positionAt 0 p then 0x3C00 else 0)) p 1) p
      rw [Layout.contents_eq hsrc, ddrElem_ddrHolding, if_neg (Ne.symm hne)] at hrelu
      rw [Layout.contents_eq hsrc, ddrElem_ddrHolding, if_pos rfl] at hnumber
      have hsame := (hrelu.symm.trans hbody).trans (hnumber (by decide +kernel))
      exact absurd hsame (by decide +kernel)
    refine ⟨haligned, ?_⟩
    by_contra hmax
    obtain ⟨s', hs', hbody⟩ := h (ddrHolding addr.toNat fun _ => 0x7E00) p hp
    have hrelu := hrun.at hs' hout
    obtain ⟨-, hnan⟩ := m.body_at (layout.contents (ddrHolding addr.toNat fun _ => 0x7E00))
      unknown (op.elementAt (layout.contents (ddrHolding addr.toNat fun _ => 0x7E00)) p 1) p
    rw [Layout.contents_eq hsrc, ddrElem_ddrHolding] at hrelu hnan
    have hsame := (hrelu.symm.trans hbody).trans (hnan (by decide +kernel))
    rw [if_neg hmax] at hsame
    exact absurd hsame (by decide +kernel)
  · intro h s p hp
    obtain ⟨haligned, hmax⟩ := h p hp
    obtain ⟨s', hs', hval⟩ := hrun s
    refine ⟨s', hs', (hval _ (hnest.positionAt_lt hp hdst)).trans ?_⟩
    rw [← haligned]
    exact (m.body_aligned hmax _ unknown _ p).symm

/-- **Kept if and only if nothing is left over**: the stream writes every
element, and RELU of a memory of numbers below zero changes it. -/
theorem actKept_iff {addr : UInt32} (hdst : ddrBaseAddr layout dst = some addr)
    {xs : List EasmInsn} (hrun : ReluRun layout src dst dst.type.numElements xs) :
    ActKept op bounds layout dst xs ↔ ActCovered op bounds dst := by
  constructor
  · intro h i hi
    by_contra hnone
    obtain ⟨s', hs', hkept⟩ := h (ddrHolding addr.toNat fun _ => 0xBC00) i hi
      fun p hp he => hnone ⟨p, hp, he⟩
    have hrelu := hrun.at hs' hi
    rw [Layout.contents_eq (v := dst) hdst (ddrHolding addr.toNat fun _ => 0xBC00),
      ddrElem_ddrHolding] at hkept
    have hnonneg := rank_relu16_nonneg (layout.contents (ddrHolding addr.toNat fun _ => 0xBC00) src i)
    rw [← show _ = _ from hrelu, show _ = _ from hkept] at hnonneg
    exact absurd hnonneg (by decide +kernel)
  · intro h s i hi hnone
    obtain ⟨p, hp, he⟩ := h i hi
    exact absurd he (hnone p hp)

/-- **When ACT lowering is sound**: the emitted stream leaves the body of the
generic at every loop point if and only if the two maps pick the same position
there and the body is a `maxnumf`; and it keeps what no loop point writes if
and only if every element of the output belongs to one. -/
theorem act_sound_iff {rest : List ScalarExpr} (hroot : op.yields = root :: rest)
    (hconv : convertOp (.generic op) = some (.act kind src dst))
    (hnest : LoopNest op.operands op.maps bounds) (hshape : dst.type.shape = [rows, cols])
    {p : Nat} {d : UInt32} (hp : UnaryPlacement layout p src (sramTypeOf dst) dst a)
    (hgeo : 0 < rows → 0 < cols → UnaryGeometry a rows cols rows cols d)
    (unknown : Nat → UInt32) :
    ∃ xs next, emitInsts layout d (unrollBody (lowerAct p kind src dst)) = some (xs, next)
      ∧ (ActWritten op root unknown bounds layout dst xs ↔ ActAligned op root bounds)
      ∧ (ActWritten op root unknown bounds layout dst xs ∧ ActKept op bounds layout dst xs
        ↔ ActAligned op root bounds ∧ ActCovered op bounds dst) := by
  obtain ⟨m, hverify⟩ := convertOp_act hroot hconv
  have hsrc : src.type.shape = [rows, cols] := by
    simp only [Lowering.verify, hshape, isF16, Bool.and_eq_true, decide_eq_true_eq] at hverify
    exact hverify.2.1
  have hn : dst.type.numElements = rows * cols := numElements_pair hshape
  obtain rfl := m.kind
  refine ⟨_, _, emitInsts_relu hp hsrc hshape, ?_⟩
  by_cases hempty : 0 < rows ∧ 0 < cols
  · have hrun : ReluRun layout src dst dst.type.numElements (reluLines a rows cols d) := by
      rw [hn]
      exact run_relu hp hsrc hshape (hgeo hempty.1 hempty.2)
    have hwritten := actWritten_iff m hnest hp.src hrun unknown
    exact ⟨hwritten, and_congr hwritten (actKept_iff hp.dst hrun)⟩
  · -- without elements there is no loop point
    have hzero : dst.type.numElements = 0 := by
      rw [hn, Nat.mul_eq_zero]
      omega
    have hdst : op.operands[1]? = some dst := by
      rw [GenericOp.operands, m.inputs, m.outputs]
      rfl
    have hnone : ∀ q, ¬ q ∈ points bounds := fun q hq => by
      have hlt := hnest.positionAt_lt hq hdst
      omega
    have hwritten : ActWritten op root unknown bounds layout dst (reluLines a rows cols d)
        ↔ ActAligned op root bounds :=
      ⟨fun _ q hq => absurd hq (hnone q), fun _ _ q hq => absurd hq (hnone q)⟩
    have hkept : ActKept op bounds layout dst (reluLines a rows cols d)
        ↔ ActCovered op bounds dst := by
      constructor
      · intro _ i hi
        omega
      · intro _ _ i hi
        omega
    exact ⟨hwritten, and_congr hwritten hkept⟩

end Sound

/-! ### A 2x2 RELU, spelled right and wrong -/

def reluSrc : Value := .blockArg 0 0 (f16Type 2 2)
def reluDst : Value := .alloc ⟨0, .user 0⟩ (f16Type 2 2) (some 64)

/-- `out[d0, d1] = body(in[map])`. -/
def reluOf (map : List AffineExpr) (body : ScalarExpr) : GenericOp :=
  { inputs := [reluSrc], outputs := [reluDst]
    maps := [⟨2, 0, map⟩, ⟨2, 0, [.dim 0, .dim 1]⟩]
    iterators := [.parallel, .parallel], yields := [body] }

def reluLayout : Layout :=
  [(tileIn 0 0 (sramTypeOf reluDst), .sram 0x10000000),
    (tileOut 0 (sramTypeOf reluDst), .sram 0x10000020),
    (reluSrc, .ddr 0x40010000), (reluDst, .ddr 0x40020000)]

def reluAddrs : UnaryAddrs :=
  { srcTile := 0x10000000, dstTile := 0x10000020, src := 0x40010000, dst := 0x40020000 }

theorem reluPlacement :
    UnaryPlacement reluLayout 0 reluSrc (sramTypeOf reluDst) reluDst reluAddrs := by
  constructor <;> rfl

theorem reluGeometry : UnaryGeometry reluAddrs 2 2 2 2 DESC_STARTADDR := by
  refine ⟨?_, ?_, by decide, by decide, by decide, by decide⟩
  · constructor <;> decide
  · constructor <;> decide

/-- Both maps pick elements of the 2x2 buffers. -/
theorem reluNest {map : List AffineExpr} (body : ScalarExpr)
    (hmap : map = [.dim 0, .dim 1] ∨ map = [.dim 1, .dim 0]) :
    LoopNest (reluOf map body).operands (reluOf map body).maps [2, 2] := by
  have hshape : ∀ v ∈ (reluOf map body).operands, v.type.shape = [2, 2] := by
    intro v hv
    simp only [reluOf, GenericOp.operands, List.cons_append, List.nil_append,
      List.mem_cons, List.not_mem_nil, or_false] at hv
    rcases hv with rfl | rfl
    · rfl
    · rfl
  have hresults : ∀ m ∈ (reluOf map body).maps,
      m.results = [.dim 0, .dim 1] ∨ m.results = [.dim 1, .dim 0] := by
    intro m hm
    simp only [reluOf, List.mem_cons, List.not_mem_nil, or_false] at hm
    rcases hm with rfl | rfl
    · exact hmap
    · exact .inl rfl
  refine ⟨rfl, ?_, ?_, ?_⟩
  · intro m hm
    simp only [reluOf, List.mem_cons, List.not_mem_nil, or_false] at hm
    rcases hm with rfl | rfl
    · exact ⟨rfl, rfl⟩
    · exact ⟨rfl, rfl⟩
  · intro k v m hv hm i j hij
    rw [hshape v (List.mem_of_getElem? hv)]
    rcases hresults m (List.mem_of_getElem? hm) with hr | hr
    · rw [hr] at hij
      rcases j with _ | _ | j
      · cases hij
        rfl
      · cases hij
        rfl
      · cases hij
    · rw [hr] at hij
      rcases j with _ | _ | j
      · cases hij
        rfl
      · cases hij
        rfl
      · cases hij
  · intro p hp k v m hv hm
    obtain ⟨r, hr, c, hc, rfl⟩ := mem_points_pair.mp hp
    have hrow : (0 : Int) ≤ (r : Int) ∧ (r : Int) < (2 : Nat) := by omega
    have hcol : (0 : Int) ≤ (c : Int) ∧ (c : Int) < (2 : Nat) := by omega
    rw [hshape v (List.mem_of_getElem? hv), AffineMap.InBounds]
    rcases hresults m (List.mem_of_getElem? hm) with hres | hres
    · rw [hres]
      exact .cons hrow (.cons hcol .nil)
    · rw [hres]
      exact .cons hcol (.cons hrow .nil)

/-- `maxnumf` through equal maps: the condition holds. -/
theorem act_sound_iff_relu :
    ∃ xs next, emitInsts reluLayout DESC_STARTADDR
        (unrollBody (lowerAct 0 .RELU reluSrc reluDst)) = some (xs, next)
      ∧ @ActWritten exactArith (reluOf [.dim 0, .dim 1] (.maxnumf (.arg 0) (.constant 0)))
          (.maxnumf (.arg 0) (.constant 0)) (fun _ => 0) [2, 2] reluLayout reluDst xs
      ∧ @ActKept exactArith (reluOf [.dim 0, .dim 1] (.maxnumf (.arg 0) (.constant 0)))
          [2, 2] reluLayout reluDst xs := by
  obtain ⟨xs, next, hemit, -, hiff⟩ := @act_sound_iff exactArith
    (reluOf [.dim 0, .dim 1] (.maxnumf (.arg 0) (.constant 0))) _ .RELU reluSrc reluDst
    [2, 2] reluLayout reluAddrs 2 2 _ rfl rfl (reluNest _ (.inl rfl)) rfl 0 DESC_STARTADDR
    reluPlacement (fun _ _ => reluGeometry) (fun _ => 0)
  exact ⟨xs, next, hemit, hiff.mpr ⟨by decide, by decide⟩⟩

/-- **RELU is not `maximumf`, and not a transpose**: both generics are accepted,
and the stream leaves neither's result. -/
theorem relu_not_generic :
    convertOp (.generic (reluOf [.dim 0, .dim 1] (.maximumf (.arg 0) (.constant 0))))
        = some (.act .RELU reluSrc reluDst)
      ∧ convertOp (.generic (reluOf [.dim 1, .dim 0] (.maxnumf (.arg 0) (.constant 0))))
        = some (.act .RELU reluSrc reluDst)
      ∧ ∃ xs next, emitInsts reluLayout DESC_STARTADDR
          (unrollBody (lowerAct 0 .RELU reluSrc reluDst)) = some (xs, next)
        ∧ ¬ @ActWritten exactArith
            (reluOf [.dim 0, .dim 1] (.maximumf (.arg 0) (.constant 0)))
            (.maximumf (.arg 0) (.constant 0)) (fun _ => 0) [2, 2] reluLayout reluDst xs
        ∧ ¬ @ActWritten exactArith
            (reluOf [.dim 1, .dim 0] (.maxnumf (.arg 0) (.constant 0)))
            (.maxnumf (.arg 0) (.constant 0)) (fun _ => 0) [2, 2] reluLayout reluDst xs := by
  let _ := exactArith
  have hrun : ReluRun reluLayout reluSrc reluDst reluDst.type.numElements
      (reluLines reluAddrs 2 2 DESC_STARTADDR) :=
    run_relu reluPlacement rfl rfl reluGeometry
  have hmaximum : ActMatch (reluOf [.dim 0, .dim 1] (.maximumf (.arg 0) (.constant 0)))
      (.maximumf (.arg 0) (.constant 0)) .RELU reluSrc reluDst :=
    ⟨rfl, rfl, rfl, .maximumf (.inl rfl) (.inl ⟨rfl, rfl⟩)⟩
  have htranspose : ActMatch (reluOf [.dim 1, .dim 0] (.maxnumf (.arg 0) (.constant 0)))
      (.maxnumf (.arg 0) (.constant 0)) .RELU reluSrc reluDst :=
    ⟨rfl, rfl, rfl, .maxnumf (.inl rfl) (.inl ⟨rfl, rfl⟩)⟩
  refine ⟨rfl, rfl, _, _, emitInsts_relu reluPlacement rfl rfl, ?_, ?_⟩
  · rw [actWritten_iff hmaximum (reluNest _ (.inl rfl)) reluPlacement.src hrun]
    intro h
    exact absurd (h [0, 0] (by decide)).2 (by decide)
  · rw [actWritten_iff htranspose (reluNest _ (.inr rfl)) reluPlacement.src hrun]
    intro h
    exact absurd (h [0, 1] (by decide)).1 (by decide)

end EclipseNpu.Compiler
